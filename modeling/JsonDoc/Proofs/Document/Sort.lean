import JsonDoc.Proofs.Document.Run
import JsonDoc.Proofs.Value.Operation
import JsonDoc.Proofs.Value.Sort

/-!
# Reading sorted documents

Reading with the keys in their own order takes the same steps as reading with the keys where they
stand, and is in the same states but for the order of members (`ReadState.Sorts`).  So it comes to
the same document, sorted, or to the same error (`Document.parseSource_byKey`).
-/

namespace JsonDoc

variable {frames frames' : List Frame} {maxDepth : Option ℕ}

/-- The container is the other one with everything before the value sorted. -/
inductive Frame.Sorts : Frame → Frame → Prop
  | element (reversed : List Value) : Sorts (.element reversed) (.element (reversed.map Value.sort))
  | member {m : Members Value} (h : m.WellKeyed .insertion) (key : String) :
      Sorts (.member m key) (.member (m.map Value.sort).sorted key)

/-- The place is the other one with everything in it sorted. -/
inductive Place.Sorts : Place → Place → Prop
  | value : Sorts .value .value
  | arrayStart : Sorts .arrayStart .arrayStart
  | arrayNext (reversed : List Value) :
      Sorts (.arrayNext reversed) (.arrayNext (reversed.map Value.sort))
  | objectStart : Sorts .objectStart .objectStart
  | key {m : Members Value} (h : m.WellKeyed .insertion) :
      Sorts (.key m) (.key (m.map Value.sort).sorted)
  | colon {m : Members Value} (h : m.WellKeyed .insertion) (key : String) :
      Sorts (.colon m key) (.colon (m.map Value.sort).sorted key)
  | objectNext {m : Members Value} (h : m.WellKeyed .insertion) :
      Sorts (.objectNext m) (.objectNext (m.map Value.sort).sorted)
  | complete (v : Value) : Sorts (.complete v) (.complete v.sort)

namespace ReadState

/-- The state is the other one with everything in it sorted. -/
structure Sorts (s s' : ReadState) : Prop where
  place : s.place.Sorts s'.place
  frames : List.Forall₂ Frame.Sorts s.frames s'.frames

theorem sorts_supply (h : List.Forall₂ Frame.Sorts frames frames') (v : Value) :
    Sorts (supply .insertion v frames) (supply .byKey v.sort frames') := by
  cases h with
  | nil => exact ⟨.complete v, .nil⟩
  | cons hframe hframes =>
    cases hframe with
    | element reversed => exact ⟨.arrayNext (v :: reversed), hframes⟩
    | member hm key =>
      rw [supply, supply, Members.insert_sorted Value.sort hm]
      exact ⟨.objectNext (hm.insert key v), hframes⟩

theorem sorts_enter {place : Place} (hplace : place.Sorts place)
    (h : List.Forall₂ Frame.Sorts frames frames') :
    SameOutcome Sorts (enter ⟨.insertion, maxDepth⟩ place frames)
      (enter ⟨.byKey, maxDepth⟩ place frames') := by
  unfold enter
  rw [h.length_eq]
  cases maxDepth with
  | none => exact .ok ⟨hplace, h⟩
  | some most =>
    dsimp only
    split
    · exact .error _
    · exact .ok ⟨hplace, h⟩

theorem sorts_stepValue (h : List.Forall₂ Frame.Sorts frames frames') (tok : Token) :
    SameOutcome Sorts (stepValue ⟨.insertion, maxDepth⟩ frames tok)
      (stepValue ⟨.byKey, maxDepth⟩ frames' tok) := by
  cases tok with
  | null => exact .ok (sorts_supply h .null)
  | true => exact .ok (sorts_supply h (.bool true))
  | false => exact .ok (sorts_supply h (.bool false))
  | integer i => exact .ok (sorts_supply h (.integer i))
  | float x => exact .ok (sorts_supply h (.float x))
  | string s => exact .ok (sorts_supply h (.string s))
  | beginArray => exact sorts_enter .arrayStart h
  | beginObject => exact sorts_enter .objectStart h
  | _ => exact .error _

theorem sorts_stepKey {m : Members Value} (hm : m.WellKeyed .insertion)
    (h : List.Forall₂ Frame.Sorts frames frames') (tok : Token) :
    SameOutcome Sorts (stepKey m frames tok) (stepKey (m.map Value.sort).sorted frames' tok) := by
  cases tok with
  | string key => exact .ok ⟨.colon hm key, h⟩
  | _ => exact .error _

/-- A token takes states that are sorted alike to such states, or fails in both. -/
theorem Sorts.step {s s' : ReadState} (h : s.Sorts s') (maxDepth : Option ℕ) (tok : Token) :
    SameOutcome Sorts (s.step ⟨.insertion, maxDepth⟩ tok) (s'.step ⟨.byKey, maxDepth⟩ tok) := by
  obtain ⟨place, frames⟩ := s
  obtain ⟨place', frames'⟩ := s'
  obtain ⟨hplace, hframes⟩ := h
  dsimp only at hplace hframes
  cases hplace with
  | value => exact sorts_stepValue hframes tok
  | arrayStart =>
    by_cases htok : tok = .endArray
    · subst htok
      exact .ok (sorts_supply hframes (.array []))
    · rw [(alikeBut_arrayStart frames).step_eq tok htok,
        (alikeBut_arrayStart frames').step_eq tok htok]
      exact sorts_stepValue (.cons (.element []) hframes) tok
  | arrayNext reversed =>
    cases tok with
    | endArray =>
      have hsupply := sorts_supply hframes (.array reversed.reverse)
      rw [Value.sort_array, List.map_reverse] at hsupply
      exact .ok hsupply
    | valueSeparator => exact .ok ⟨.value, .cons (.element reversed) hframes⟩
    | _ => exact .error _
  | objectStart =>
    by_cases htok : tok = .endObject
    · subst htok
      exact .ok (sorts_supply hframes (.object .empty))
    · rw [(alikeBut_objectStart frames).step_eq tok htok,
        (alikeBut_objectStart frames').step_eq tok htok]
      exact sorts_stepKey (Members.wellKeyed_empty .insertion) hframes tok
  | key hm => exact sorts_stepKey hm hframes tok
  | colon hm key =>
    cases tok with
    | nameSeparator => exact .ok ⟨.value, .cons (.member hm key) hframes⟩
    | _ => exact .error _
  | @objectNext m hm =>
    cases tok with
    | endObject =>
      have hsupply := sorts_supply hframes (.object m)
      rw [Value.sort_object] at hsupply
      exact .ok hsupply
    | valueSeparator => exact .ok ⟨.key hm, hframes⟩
    | _ => exact .error _
  | complete v => exact .error _

theorem Sorts.atEnd {s s' : ReadState} (h : s.Sorts s') :
    SameOutcome (fun v w => w = v.sort) s.atEnd s'.atEnd := by
  obtain ⟨place, frames⟩ := s
  obtain ⟨place', frames'⟩ := s'
  cases h.place with
  | complete v => exact .ok rfl
  | _ => exact .error _

/-- Runs from states that are sorted alike come to the same document, sorted, or the same error. -/
theorem Sorts.result_run {s s' : ReadState} (h : s.Sorts s') (maxDepth : Option ℕ)
    (cur : Cursor) :
    SameOutcome (fun v w => w = v.sort)
      (Document.result (s.run ⟨.insertion, maxDepth⟩ cur))
      (Document.result (s'.run ⟨.byKey, maxDepth⟩ cur)) := by
  induction hlen : cur.pending.length using Nat.strong_induction_on generalizing s s' cur with
  | _ len ih =>
  subst hlen
  cases hscan : Token.scan cur with
  | error cause fin =>
    rw [run_of_scan_error hscan, run_of_scan_error hscan]
    exact .error _
  | ok tok fin =>
    by_cases htok : tok = .endOfInput
    · subst htok
      rw [run_of_scan_end hscan, run_of_scan_end hscan]
      have hend := h.atEnd
      generalize s.atEnd = r at hend ⊢
      generalize s'.atEnd = r' at hend ⊢
      cases hend with
      | ok hsort => exact .ok hsort
      | error cause => exact .error _
    · rw [run_of_scan hscan htok, run_of_scan hscan htok]
      have hstep := h.step maxDepth tok
      generalize s.step _ tok = r at hstep ⊢
      generalize s'.step _ tok = r' at hstep ⊢
      cases hstep with
      | ok hs => exact ih _ (Token.length_pending_scan_lt hscan htok) hs fin rfl
      | error cause => exact .error _

end ReadState

/-- Reading with the keys in their own order comes to the sorted document, or to the same error. -/
theorem Document.parseSource_byKey {σ : Type} [CharSource σ] (maxDepth : Option ℕ) (source : σ) :
    parseSource ⟨.byKey, maxDepth⟩ source =
      (parseSource ⟨.insertion, maxDepth⟩ source).map Value.sort := by
  have hstart : ReadState.start.Sorts ReadState.start := ⟨.value, .nil⟩
  have hrun := hstart.result_run maxDepth (.start (CharSource.answers source))
  unfold parseSource read
  generalize result _ = r at hrun ⊢
  generalize result _ = r' at hrun ⊢
  cases hrun with
  | ok hsort => rw [hsort, Except.map]
  | error e => rfl

end JsonDoc
