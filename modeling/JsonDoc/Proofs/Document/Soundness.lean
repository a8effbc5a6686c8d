import JsonDoc.Proofs.Document.Grammar
import JsonDoc.Proofs.Document.Run

/-!
# What is read is spelled

A run that accepts has a derivation of the grammar behind it.  The three statements of the induction
are about a value, about the elements of an array from one of them on, and about the members of an
object likewise; each is made for every stack of open containers, and all three together go by the
length of the text that is left.
-/

namespace JsonDoc.ReadState

open Document

variable {number : NumberLiteral → Value → Prop} {order : MemberOrder} {u u' : List Char}

/-- The members after those of a list of pairs have been inserted. -/
def insertAll (order : MemberOrder) (members : Members Value) (ps : List (String × Value)) :
    Members Value :=
  ps.foldl (fun m p => (m.insert order p.1 p.2).2) members

/-- What is accepted from a value on begins with the spelling of a value. -/
def ValueSound (number : NumberLiteral → Value → Prop) (order : MemberOrder) (u : List Char) :
    Prop :=
  ∀ frames v, (ReadState.mk .value frames).Accepts (unlimited order) u v →
    ∃ w t x u', u = w ++ (t ++ u') ∧ u'.length < u.length ∧ IsBlanks w ∧
      SpellsValue number order t x ∧ (supply order x frames).Accepts (unlimited order) u' v

/-- What is accepted within an array begins with the spelling of elements, up to the bracket. -/
def ElementsSound (number : NumberLiteral → Value → Prop) (order : MemberOrder) (u : List Char) :
    Prop :=
  ∀ reversed frames v,
    (ReadState.mk .value (.element reversed :: frames)).Accepts (unlimited order) u v →
    ∃ t vs u', u = t ++ ']' :: u' ∧ SpellsElements number order t vs ∧
      (supply order (.array (reversed.reverse ++ vs)) frames).Accepts (unlimited order) u' v

/-- What is accepted within an object begins with the spelling of members, up to the brace. -/
def MembersSound (number : NumberLiteral → Value → Prop) (order : MemberOrder) (u : List Char) :
    Prop :=
  ∀ members frames v, (ReadState.mk (.key members) frames).Accepts (unlimited order) u v →
    ∃ t ps u', u = t ++ '}' :: u' ∧ SpellsMembers number order t ps ∧
      (supply order (.object (insertAll order members ps)) frames).Accepts (unlimited order) u' v

theorem elementsSound (hvalue : ValueSound number order u)
    (ih : ∀ u' : List Char, u'.length < u.length → ElementsSound number order u') :
    ElementsSound number order u := by
  intro reversed frames v h
  obtain ⟨w, t, x, u₁, rfl, hlen, hw, hx, h₁⟩ := hvalue _ v h
  obtain ⟨tok, u₂, hscan, ⟨-, hend⟩ | ⟨-, s', hstep, h₂⟩⟩ := h₁.exists_step
  · cases hend
  rcases step_arrayNext hstep with ⟨rfl, rfl⟩ | ⟨rfl, rfl⟩
  · obtain ⟨y, _, hy, ⟨⟩, rfl⟩ := hscan.exists_spelling nofun nofun nofun
    refine ⟨w ++ (t ++ y), [x], u₂, by simp, .one (.mk hw hx hy), ?_⟩
    rw [List.reverse_cons] at h₂
    exact h₂
  · obtain ⟨y, _, hy, ⟨⟩, rfl⟩ := hscan.exists_spelling nofun nofun nofun
    have hlen' : u₂.length < (w ++ (t ++ (y ++ ([','] ++ u₂)))).length := by
      simp only [List.length_append, List.length_cons] at hlen ⊢
      omega
    obtain ⟨t', vs, u', rfl, hvs, h₃⟩ := ih u₂ hlen' _ _ v h₂
    refine ⟨w ++ (t ++ y) ++ ',' :: t', x :: vs, u', by simp, .more (.mk hw hx hy) hvs, ?_⟩
    rw [List.reverse_cons, List.append_assoc] at h₃
    exact h₃

theorem membersSound
    (hvalue : ∀ u' : List Char, u'.length < u.length → ValueSound number order u')
    (ih : ∀ u' : List Char, u'.length < u.length → MembersSound number order u') :
    MembersSound number order u := by
  intro members frames v h
  obtain ⟨tok, u₁, hscan, ⟨-, hend⟩ | ⟨-, s', hstep, h₁⟩⟩ := h.exists_step
  · cases hend
  obtain ⟨key, rfl, rfl⟩ := step_key hstep
  obtain ⟨w, _, hw, ht, rfl⟩ := hscan.exists_spelling nofun nofun nofun
  cases ht with
  | @string k s hk =>
  obtain ⟨tok, u₂, hcolon, ⟨-, hend⟩ | ⟨-, s', hstep, h₂⟩⟩ := h₁.exists_step
  · cases hend
  obtain ⟨rfl, rfl⟩ := step_colon hstep
  obtain ⟨y, _, hy, ⟨⟩, rfl⟩ := hcolon.exists_spelling nofun nofun nofun
  obtain ⟨z, t, x, u₃, rfl, hlen, hz, hx, h₃⟩ := hvalue u₂ (by simp; omega) _ v h₂
  obtain ⟨tok, u₄, hnext, ⟨-, hend⟩ | ⟨-, s', hstep, h₄⟩⟩ := h₃.exists_step
  · cases hend
  rcases step_objectNext hstep with ⟨rfl, rfl⟩ | ⟨rfl, rfl⟩
  · obtain ⟨a, _, ha, ⟨⟩, rfl⟩ := hnext.exists_spelling nofun nofun nofun
    exact ⟨w ++ ('"' :: (k ++ ['"']) ++ (y ++ ':' :: (z ++ (t ++ a)))), [(String.ofList s, x)], u₄,
      by simp, .one (.mk hw hk hy (.mk hz hx ha)), h₄⟩
  · obtain ⟨a, _, ha, ⟨⟩, rfl⟩ := hnext.exists_spelling nofun nofun nofun
    obtain ⟨t', ps, u', rfl, hps, h₅⟩ := ih u₄ (by simp; omega) _ _ v h₄
    exact ⟨w ++ ('"' :: (k ++ ['"']) ++ (y ++ ':' :: (z ++ (t ++ a)))) ++ ',' :: t',
      (String.ofList s, x) :: ps, u', by simp, .more (.mk hw hk hy (.mk hz hx ha)) hps, h₅⟩

theorem valueSound (hn : ∀ l v, NumberLiteral.Denotes l v → number l v)
    (helements : ∀ u' : List Char, u'.length < u.length → ElementsSound number order u')
    (hmembers : ∀ u' : List Char, u'.length < u.length → MembersSound number order u') :
    ValueSound number order u := by
  intro frames v h
  obtain ⟨tok, u₁, hscan, ⟨-, hend⟩ | ⟨hne, s', hstep, h₁⟩⟩ := h.exists_step
  · cases hend
  cases hscan with
  | endOfInput hw => exact absurd rfl hne
  | @number w _ l _ hw hu ht =>
    have hlen : u₁.length < (w ++ (l.text ++ u₁)).length := by
      have := l.length_text_pos
      simp only [List.length_append]
      omega
    rcases NumberLiteral.denotes_of_token ht with ⟨i, rfl, hi⟩ | ⟨x, rfl, hx⟩
    · cases hstep
      exact ⟨w, l.text, .integer i, u₁, rfl, hlen, hw, .number (hn l _ hi), h₁⟩
    · cases hstep
      exact ⟨w, l.text, .float x, u₁, rfl, hlen, hw, .number (hn l _ hx), h₁⟩
  | @token w t _ _ hw ht =>
    cases ht with
    | null =>
      cases hstep
      exact ⟨w, _, _, u₁, rfl, by simp; omega, hw, .null, h₁⟩
    | true =>
      cases hstep
      exact ⟨w, _, _, u₁, rfl, by simp; omega, hw, .true, h₁⟩
    | false =>
      cases hstep
      exact ⟨w, _, _, u₁, rfl, by simp; omega, hw, .false, h₁⟩
    | string hs =>
      cases hstep
      exact ⟨w, _, _, u₁, rfl, by simp; omega, hw, .string hs, h₁⟩
    | beginArray =>
      cases hstep
      rcases h₁.of_alikeBut (alikeBut_arrayStart frames) nofun rfl with ⟨u₂, hclose, h₂⟩ | h₂
      · obtain ⟨y, _, hy, ⟨⟩, rfl⟩ := hclose.exists_spelling nofun nofun nofun
        exact ⟨w, '[' :: (y ++ [']']), .array [], u₂, by simp, by simp; omega, hw,
          .emptyArray hy, h₂⟩
      · obtain ⟨t, vs, u₂, rfl, hvs, h₃⟩ := helements u₁ (by simp; omega) _ _ v h₂
        exact ⟨w, '[' :: (t ++ [']']), .array vs, u₂, by simp, by simp; omega, hw, .array hvs, h₃⟩
    | beginObject =>
      cases hstep
      rcases h₁.of_alikeBut (alikeBut_objectStart frames) nofun rfl with ⟨u₂, hclose, h₂⟩ | h₂
      · obtain ⟨y, _, hy, ⟨⟩, rfl⟩ := hclose.exists_spelling nofun nofun nofun
        exact ⟨w, '{' :: (y ++ ['}']), .object .empty, u₂, by simp, by simp; omega, hw,
          .emptyObject hy, h₂⟩
      · obtain ⟨t, ps, u₂, rfl, hps, h₃⟩ := hmembers u₁ (by simp; omega) _ _ v h₂
        exact ⟨w, '{' :: (t ++ ['}']), _, u₂, by simp, by simp; omega, hw,
          .object hps (Members.collects_ofList order ps), h₃⟩
    | _ => cases hstep

theorem sound (hn : ∀ l v, NumberLiteral.Denotes l v → number l v) (u : List Char) :
    ValueSound number order u ∧ ElementsSound number order u ∧ MembersSound number order u := by
  induction hlen : u.length using Nat.strong_induction_on generalizing u with
  | _ n ih =>
    subst hlen
    have hvalue : ValueSound number order u :=
      valueSound hn (fun u' h => (ih _ h u' rfl).2.1) (fun u' h => (ih _ h u' rfl).2.2)
    exact ⟨hvalue, elementsSound hvalue fun u' h => (ih _ h u' rfl).2.1,
      membersSound (fun u' h => (ih _ h u' rfl).1) fun u' h => (ih _ h u' rfl).2.2⟩

/-- A document that is read is spelled by the text. -/
theorem spellsElement_of_accepts (hn : ∀ l v, NumberLiteral.Denotes l v → number l v)
    {u : List Char} {v : Value} (h : start.Accepts (unlimited order) u v) :
    SpellsElement number order u v := by
  obtain ⟨w, t, x, u₁, rfl, -, hw, hx, h₁⟩ := (sound hn u).1 [] v h
  obtain ⟨tok, u₂, hscan, ⟨rfl, hend⟩ | ⟨-, s', hstep, -⟩⟩ := h₁.exists_step
  · cases hend
    cases hscan with
    | endOfInput hy => exact .mk hw hx hy
    | token hw ht => cases ht
    | number hw hu ht =>
      rcases NumberLiteral.denotes_of_token ht with ⟨i, hi, -⟩ | ⟨x, hx, -⟩
      · cases hi
      · cases hx
  · exact (step_complete hstep).elim

end JsonDoc.ReadState
