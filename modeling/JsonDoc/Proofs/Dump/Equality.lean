import JsonDoc.Proofs.Binary64.Tolerance
import JsonDoc.Proofs.Dump.Precision
import JsonDoc.Proofs.Dump.RoundTrip
import JsonDoc.Proofs.Value.Finite

/-!
# What is read back is equal

A finite number is written to some digits, and what is read from them is the number nearest to their
value, or the integer that they are.  From thirteen digits on it is nearly equal to the number that
was written (`Dump.exists_spells_equal`), and so every value whose numbers are finite is equal to
what is read back (`Document.parse_dumpWith_equal`).
-/

namespace JsonDoc

/-! ### Numbers -/

/-- A literal within range, whose digits are all kept, is read as the number nearest to it, or as an
integer for which this number stands. -/
theorem NumberLiteral.exists_isNearest_token (l : NumberLiteral) (hlen : l.text.length < 2 ^ 62)
    (hfit : l.significand < UInt64.size) (hpos : 0 < l.magnitude)
    (hlt : l.magnitude < midpointAt (infinityCode - 1)) :
    ∃ y : Binary64, Binary64.IsNearest l.negative l.magnitude y ∧ y.isFinite ∧
      (l.token = .ok (.float y) ∨
        ∃ i : Int64, l.token = .ok (.integer i) ∧ Binary64.ofInt i.toInt = y) := by
  cases hint : l.numeral.integer? with
  | none =>
    obtain ⟨y, hy, htoken⟩ := l.roundsFrom_token hlen hint
    have hkept : 10 ^ l.dropped ∣ l.significand := by
      rw [dropped_eq_zero hfit, pow_zero]
      exact one_dvd _
    rw [keptMagnitude_of_dvd hkept] at hy
    have hfinite := hy.isFinite hlt
    rw [if_pos hfinite] at htoken
    exact ⟨y, hy, hfinite, Or.inl htoken⟩
  | some i =>
    obtain ⟨hnone, hi⟩ := l.integer?_eq_some_iff.mp hint
    have hmagnitude := magnitude_eq_significand hnone
    have hsignificand : 0 < l.significand := by
      rw [hmagnitude] at hpos
      exact_mod_cast hpos
    have hnearest := Binary64.isNearest_ofInt i.toInt
    have hnegative : decide (i.toInt < 0) = l.negative := by
      rw [← hi]
      cases l.negative with
      | false => simp
      | true =>
        simp
        omega
    have habs : |(i.toInt : ℚ)| = l.magnitude := by
      rw [hmagnitude, ← hi]
      cases l.negative <;> simp
    rw [hnegative, habs] at hnearest
    have htoken := l.token_eq_integer_iff.mpr ⟨hnone, hi⟩
    exact ⟨_, hnearest, hnearest.isFinite hlt, Or.inr ⟨i, htoken, rfl⟩⟩

namespace Dump

variable {order : MemberOrder} {count : ℕ}

/-- The text of a finite number, of thirteen digits or more, spells a number equal to it. -/
theorem exists_spells_equal (hlow : 13 ≤ count) (hcount : count ≤ mostPrecision) (s : Bool)
    (m : Magnitude) :
    ∃ w, SpellsValue NumberLiteral.Denotes order (floatPieces count (.finite s m)).flatten w ∧
      w.equal (.float (.finite s m)) = true := by
  by_cases hm : m.code = 0
  · have hint : Binary64.ofInt (0 : Int64).toInt = .finite false .zero := by decide +kernel
    refine ⟨.integer 0, spells_zero count s hm, ?_⟩
    rw [Value.equal, hint]
    exact Binary64.nearlyEqual_of_code_eq_zero rfl hm
  · have hpos : 0 < count := by omega
    obtain ⟨l, hl⟩ := exists_writesMagnitude s hm hpos hcount
    have hvalue := Magnitude.valueAt_pos hm
    have herror := Magnitude.abs_sub_written_le hm hlow hcount
    rw [← hl.magnitude_eq] at herror
    have hmagnitude : 0 < l.magnitude := by
      have := (abs_le.mp herror).2
      linarith
    obtain ⟨y, hnearest, hfinite, htoken⟩ := l.exists_isNearest_token hl.length_lt
      hl.significand_lt hmagnitude (hl.magnitude_lt hm hpos hcount)
    rw [hl.negative_eq] at hnearest
    have hequal : y.nearlyEqual (.finite s m) = true := by
      cases y with
      | nan => cases hfinite
      | infinite t => cases hfinite
      | finite t k =>
        obtain ⟨rfl, hround⟩ := hnearest
        exact Binary64.nearlyEqual_of_roundsTo hmagnitude.le hround herror
    rw [← hl.text_eq]
    rcases htoken with htoken | ⟨i, htoken, rfl⟩
    · exact ⟨.float y, .number (Or.inr ⟨y, htoken, rfl⟩), hequal⟩
    · exact ⟨.integer i, .number (Or.inl ⟨i, htoken, rfl⟩), hequal⟩

end Dump

/-! ### Values -/

namespace Value

variable {order : MemberOrder} {f : Binary64 → Value}

mutual

/-- A value is equal to one with equal numbers at the places of the finite ones. -/
theorem equal_mapFloats (hf : ∀ x : Binary64, x.isFinite → (f x).equal (float x) = true) (v : Value)
    (hv : v.Keyed order) (hfinite : v.AllFinite) : (v.mapFloats f).equal v = true := by
  match v with
  | null => rfl
  | bool b => exact beq_self_eq_true b
  | integer i => exact beq_self_eq_true i
  | float x => exact hf x hfinite
  | string s => exact beq_self_eq_true s
  | array xs =>
    obtain ⟨hlen, hxs⟩ := equalElements_mapFloats hf xs hv hfinite
    rw [mapFloats, equal, hlen, hxs, beq_self_eq_true]
    rfl
  | object ⟨entries⟩ =>
    obtain ⟨hkeys, hvalues⟩ := hv
    have hlen : (mapFloatsMembers f entries).length = entries.length := by
      rw [← List.length_map Prod.fst, map_fst_mapFloatsMembers, List.length_map]
    have hmembers := equalMembers_mapFloats hf entries hvalues hfinite ⟨entries⟩ fun p hp =>
      (Members.lookup?_eq_some_iff hkeys.nodup).mpr hp
    rw [mapFloats, equal, hlen, hmembers, Members.size, beq_self_eq_true]
    rfl

theorem equalElements_mapFloats (hf : ∀ x : Binary64, x.isFinite → (f x).equal (float x) = true)
    (xs : List Value) (hxs : KeyedElements order xs) (hfinite : AllFiniteElements xs) :
    (mapFloatsElements f xs).length = xs.length ∧
      equalElements (mapFloatsElements f xs) xs = true := by
  match xs with
  | [] => exact ⟨rfl, rfl⟩
  | x :: xs =>
    obtain ⟨hlen, hrest⟩ := equalElements_mapFloats hf xs hxs.2 hfinite.2
    refine ⟨congrArg Nat.succ hlen, ?_⟩
    rw [mapFloatsElements, equalElements, equal_mapFloats hf x hxs.1 hfinite.1, hrest]
    rfl

theorem equalMembers_mapFloats (hf : ∀ x : Binary64, x.isFinite → (f x).equal (float x) = true)
    (members : List (String × Value)) (hmembers : KeyedMembers order members)
    (hfinite : AllFiniteMembers members) (all : Members Value)
    (hall : ∀ p ∈ members, all.find? p.1 = some p.2) :
    equalMembers (mapFloatsMembers f members) all = true := by
  match members with
  | [] => rfl
  | (key, x) :: members =>
    rw [List.forall_mem_cons] at hall
    rw [mapFloatsMembers, equalMembers, hall.1,
      equalMembers_mapFloats hf members hmembers.2 hfinite.2 all hall.2, Bool.and_true]
    exact equal_mapFloats hf x hmembers.1 hfinite.1

end

end Value

/-! ### Documents -/

/-- A value whose numbers are finite, as they are in what is read, is equal to what is read back of
it, if it is written with thirteen digits or more and lines are indented by what may stand between
tokens. -/
theorem Document.parse_dumpWith_equal (order : MemberOrder) {o : DumpOptions}
    (ho : o.indent = 0 ∨
      o.indentChar = ' ' ∨ o.indentChar = '\t' ∨ o.indentChar = '\n' ∨ o.indentChar = '\r')
    (hprecision : 13 ≤ o.precision) :
    (∀ v : Value, v.Keyed order → v.AllFinite →
      ∃ w, Document.parse order (v.dumpWith o) = .ok w ∧ w.equal v = true) ∧
    ∀ text v, Document.parse order text = .ok v → v.Keyed order ∧ v.AllFinite := by
  have hlow : 13 ≤ (o.withPrecision o.precision).precision :=
    le_max_of_le_right (le_min hprecision (by decide))
  have hreadable := DumpOptions.isReadable_withPrecision ho
  refine ⟨fun v hv hfinite => ?_, fun text v h => ⟨keyed_of_parse h, allFinite_of_parse h⟩⟩
  have hfloats : ∀ x : Binary64, ∃ w, SpellsValue NumberLiteral.Denotes order
      (Dump.floatPieces (o.withPrecision o.precision).precision x).flatten w ∧
        (x.isFinite → w.equal (.float x) = true) := by
    intro x
    cases x with
    | nan => exact ⟨.null, .null, nofun⟩
    | infinite s => exact ⟨.null, .null, nofun⟩
    | finite s m =>
      obtain ⟨w, hspell, hequal⟩ := Dump.exists_spells_equal hlow hreadable.precision_le s m
      exact ⟨w, hspell, fun _ => hequal⟩
  choose f hspells hequal using hfloats
  have hspell := Value.spells_runs hreadable hspells 0 v hv
  exact ⟨v.mapFloats f, Document.parse_dumpWith_of_spells hspell,
    Value.equal_mapFloats hequal v hv hfinite⟩

/-- A negative zero, the least number above zero and the largest number, to sixteen digits. -/
theorem Document.parse_compact_equal :
    DumpOptions.compact.indent = 0 ∧ 13 ≤ DumpOptions.compact.precision ∧
      ∃ w, Document.parse .insertion (Value.dumpWith .compact (.object ⟨[("b", .array
          [.float (.finite true .zero), .float (.finite false ⟨1, by decide⟩)]),
          ("a", .float (.finite false ⟨infinityCode - 1, by decide⟩))]⟩)) = .ok w ∧
        w.equal (.object ⟨[("b", .array
          [.float (.finite true .zero), .float (.finite false ⟨1, by decide⟩)]),
          ("a", .float (.finite false ⟨infinityCode - 1, by decide⟩))]⟩) = true := by
  have hindent : DumpOptions.compact.indent = 0 := rfl
  have hprecision : 13 ≤ DumpOptions.compact.precision := by decide
  have hkeyed : (Value.object ⟨[("b", .array
      [.float (.finite true .zero), .float (.finite false ⟨1, by decide⟩)]),
      ("a", .float (.finite false ⟨infinityCode - 1, by decide⟩))]⟩).Keyed .insertion :=
    ⟨by simp [Members.WellKeyed, Members.keys], ⟨trivial, trivial, trivial⟩, trivial, trivial⟩
  have hequal := Document.parse_dumpWith_equal .insertion (Or.inl hindent) hprecision
  exact ⟨hindent, hprecision, hequal.1 _ hkeyed ⟨⟨rfl, rfl, trivial⟩, rfl, trivial⟩⟩

end JsonDoc
