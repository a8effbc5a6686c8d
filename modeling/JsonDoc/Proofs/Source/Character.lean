import JsonDoc.Proofs.Source.Encoding
import JsonDoc.Proofs.Source.Match

/-!
# One character of a stream

A character is read from its first byte and from as many bytes of a stream as that byte selects.  The
stream gives all of them, or it breaks before (`Utf8.exists_gives`), and a stream that notes down what
its reads come to tells which of them are made (`Utf8.noted`).  So a character is read iff the bytes
are those that it is written as, and nothing is read behind them (`Utf8.readChar_exact`).  It is all
the same whether the bytes are told to be a text, of which the first character is taken, or to be that
one character (`Utf8.firstChar?_eq_decode`).
-/

namespace JsonDoc.Utf8

/-! ### Streams of bytes -/

/-- What one read comes to. -/
abbrev ByteRead := Except SourceError (Option UInt8)

/-- A read that gives a byte. -/
def ByteRead.byte (b : UInt8) : ByteRead := .ok (some b)

theorem ByteRead.byte_injective : Function.Injective ByteRead.byte := by
  intro a b h
  cases h
  rfl

theorem ByteRead.exists_byte_of_mem {r : ByteRead} {bytes : List UInt8} (h : r ∈ bytes.map byte) :
    ∃ b, r = byte b := by
  obtain ⟨b, -, rfl⟩ := List.mem_map.mp h
  exact ⟨b, rfl⟩

variable {σ : Type} {nextByte : EStateM SourceError σ (Option UInt8)} {s t u : σ}
  {first : UInt8} {bytes : List UInt8} {r : ByteRead} {e : SourceError} {c : Char} {n : ℕ}

/-- The stream gives these bytes, one read after the other, between two states. -/
inductive Gives (nextByte : EStateM SourceError σ (Option UInt8)) : List UInt8 → σ → σ → Prop
  | nil (s : σ) : Gives nextByte [] s s
  | cons {b : UInt8} {bytes : List UInt8} {s t u : σ} :
      nextByte s = .ok (some b) t → Gives nextByte bytes t u → Gives nextByte (b :: bytes) s u

/-- A read gives no byte but the end or a failure, and this is the error that it leads to. -/
inductive Breaks (nextByte : EStateM SourceError σ (Option UInt8)) :
    ByteRead → SourceError → σ → σ → Prop
  | ended {s t : σ} : nextByte s = .ok none t → Breaks nextByte (.ok none) .invalidUtf8 s t
  | failed {s t : σ} {e : SourceError} :
      nextByte s = .error e t → Breaks nextByte (.error e) e s t

theorem Breaks.not_byte (h : Breaks nextByte r e s t) (b : UInt8) : r ≠ .byte b := by
  cases h with
  | ended => exact nofun
  | failed => exact nofun

theorem Breaks.eq_of_error {e' : SourceError} (h : Breaks nextByte (.error e') e s t) : e = e' := by
  cases h with
  | failed => rfl

theorem Breaks.cause (h : Breaks nextByte r e s t) : e = .invalidUtf8 ∨ r = .error e := by
  cases h with
  | ended => exact Or.inl rfl
  | failed => exact Or.inr rfl

/-- A stream gives as many bytes as are asked for, or breaks before. -/
theorem exists_gives (nextByte : EStateM SourceError σ (Option UInt8)) (n : ℕ) (s : σ) :
    (∃ bytes t, bytes.length = n ∧ Gives nextByte bytes s t) ∨
      ∃ bytes t r e u, bytes.length < n ∧ Gives nextByte bytes s t ∧ Breaks nextByte r e t u := by
  induction n generalizing s with
  | zero => exact Or.inl ⟨[], s, rfl, .nil s⟩
  | succ n ih =>
    rcases hread : nextByte s with ⟨_ | b, t⟩ | ⟨e, t⟩
    · exact Or.inr ⟨[], s, _, _, t, Nat.succ_pos n, .nil s, .ended hread⟩
    · rcases ih t with ⟨bytes, u, hlen, hgives⟩ | ⟨bytes, u, r, e, v, hlt, hgives, hbreaks⟩
      · exact Or.inl ⟨b :: bytes, u, congrArg Nat.succ hlen, .cons hread hgives⟩
      · exact Or.inr ⟨b :: bytes, u, r, e, v, Nat.succ_lt_succ hlt, .cons hread hgives, hbreaks⟩
    · exact Or.inr ⟨[], s, _, _, t, Nat.succ_pos n, .nil s, .failed hread⟩

theorem readContinuation_of_gives (h : Gives nextByte bytes s t) :
    readContinuation nextByte bytes.length s = .ok bytes t := by
  induction h with
  | nil s => rfl
  | cons hread _ ih => rw [List.length_cons, readContinuation_succ, hread]; dsimp only; rw [ih]

theorem readContinuation_of_breaks (h : Gives nextByte bytes s t) (hbreaks : Breaks nextByte r e t u)
    (hlt : bytes.length < n) : readContinuation nextByte n s = .error e u := by
  induction h generalizing n with
  | nil s =>
    obtain ⟨n, rfl⟩ := Nat.exists_eq_succ_of_ne_zero (Nat.ne_of_gt hlt)
    rw [readContinuation_succ]
    cases hbreaks with
    | ended hread => rw [hread]
    | failed hread => rw [hread]
  | cons hread _ ih =>
    obtain ⟨n, rfl⟩ := Nat.exists_eq_succ_of_ne_zero (Nat.ne_zero_of_lt hlt)
    rw [readContinuation_succ, hread]
    dsimp only
    rw [ih hbreaks (Nat.lt_of_succ_lt_succ hlt)]

/-! ### Notes of the reads -/

/-- The stream that notes down what each read comes to. -/
def noted (nextByte : EStateM SourceError σ (Option UInt8)) :
    EStateM SourceError (σ × List ByteRead) (Option UInt8) := fun (s, notes) =>
  match nextByte s with
  | .ok read t => .ok read (t, notes ++ [.ok read])
  | .error e t => .error e (t, notes ++ [.error e])

theorem Gives.noted (h : Gives nextByte bytes s t) (notes : List ByteRead) :
    Gives (noted nextByte) bytes (s, notes) (t, notes ++ bytes.map .byte) := by
  induction h generalizing notes with
  | nil s =>
    rw [List.map_nil, List.append_nil]
    exact .nil _
  | @cons b bytes s t u hread _ ih =>
    have hnoted : Utf8.noted nextByte (s, notes) = .ok (some b) (t, notes ++ [.byte b]) := by
      rw [Utf8.noted, hread]
      rfl
    rw [List.map_cons, List.append_cons]
    exact .cons hnoted (ih _)

theorem Breaks.noted (h : Breaks nextByte r e s t) (notes : List ByteRead) :
    Breaks (noted nextByte) r e (s, notes) (t, notes ++ [r]) := by
  cases h with
  | ended hread =>
    refine .ended ?_
    rw [Utf8.noted, hread]
  | failed hread =>
    refine .failed ?_
    rw [Utf8.noted, hread]

/-! ### The length that a byte selects -/

/-- The count of leading ones, where the second bit is taken for one and no more than four count. -/
def leadingOnes (first : UInt8) : ℕ := (~~~(first ||| 0x40) ||| 0xF).toBitVec.clz.toNat

/-- The count of bytes that a first byte selects, which is one if it is of ASCII. -/
def selectedLength (first : UInt8) : ℕ := if first < 0x80 then 1 else leadingOnes first

theorem announcedLength_eq (h : ¬ first < 0x80) : announcedLength first = leadingOnes first := by
  have hall : ∀ b : BitVec 8, ¬ UInt8.ofBitVec b < 0x80 →
      announcedLength (.ofBitVec b) = leadingOnes (.ofBitVec b) := by decide +kernel
  exact hall first.toBitVec h

theorem selectedLength_eq (first : UInt8) :
    selectedLength first = if first < 0x80 then 1 else announcedLength first := by
  unfold selectedLength
  split
  case isTrue => rfl
  case isFalse h => exact (announcedLength_eq h).symm

theorem selectedLength_bounds (first : UInt8) :
    1 ≤ selectedLength first ∧ selectedLength first ≤ 4 := by
  rw [selectedLength_eq]
  split
  case isTrue => decide
  case isFalse =>
    have hbounds := announcedLength_bounds first
    omega

/-- The bytes of a character are as many as the first one selects. -/
theorem length_encode_eq (h : encode c = first :: bytes) :
    bytes.length + 1 = selectedLength first := by
  have hbytes := length_of_encode h
  have hbounds := selectedLength_bounds first
  rw [selectedLength_eq] at hbounds ⊢
  split_ifs at hbytes hbounds ⊢ <;> omega

/-! ### Reading one character -/

/-- A byte of ASCII is decoded like any other bytes that were selected. -/
theorem readChar_eq_decode (first : UInt8) (s : σ) :
    readChar nextByte first s =
      match readContinuation nextByte (selectedLength first - 1) s with
      | .ok bytes t =>
        match decode? (first :: bytes) with
        | some c => .ok c t
        | none => .error .invalidUtf8 t
      | .error e t => .error e t := by
  rw [readChar_eq, selectedLength_eq]
  split_ifs with h
  case pos =>
    have hdecode : decode? [first] = some (Char.ofNat first.toNat) :=
      decode?_eq_some_iff.mpr (encode_ofNat h).symm
    change _ = match decode? [first] with
      | some c => EStateM.Result.ok c s
      | none => .error SourceError.invalidUtf8 s
    rw [hdecode]
  case neg => rfl

/-- The first character of the text that bytes are. -/
def firstChar? (bytes : List UInt8) : Option Char := (text? bytes).bind List.head?

/-- No shorter character comes first in a text of as many bytes as its first one selects. -/
theorem firstChar?_eq_decode (hlen : bytes.length + 1 = selectedLength first) :
    firstChar? (first :: bytes) = decode? (first :: bytes) := by
  ext c
  rw [firstChar?, Option.bind_eq_some_iff, decode?_eq_some_iff]
  constructor
  · rintro ⟨_ | ⟨d, cs⟩, htext, hhead⟩
    · cases hhead
    · cases hhead
      obtain ⟨_, tail, hc⟩ := List.exists_cons_of_ne_nil (decodes.encode_ne_nil c)
      have hbytes := text?_eq_some_iff.mp htext
      rw [List.flatMap_cons, hc, List.cons_append] at hbytes
      obtain ⟨rfl, rfl⟩ := List.cons.inj hbytes
      -- the bytes of the character are as many as there are, so none is left for others
      have hall := length_encode_eq hc
      rw [List.length_append] at hlen
      have hrest : cs.flatMap encode = [] := List.length_eq_zero_iff.mp (by omega)
      rw [hc, hrest, List.append_nil]
  · intro h
    refine ⟨[c], text?_eq_some_iff.mpr ?_, rfl⟩
    rw [h, List.flatMap_singleton]

/-- Reads as many bytes as the first one selects, and then tells whether all of them are a text, of
which it answers the first character. -/
def readSelected (nextByte : EStateM SourceError σ (Option UInt8)) (first : UInt8) :
    EStateM SourceError σ Char :=
  if first < 0x80 then pure (Char.ofNat first.toNat)
  else do
    let bytes ← readContinuation nextByte (leadingOnes first - 1)
    match firstChar? (first :: bytes) with
    | some c => pure c
    | none => throw .invalidUtf8

theorem readSelected_eq (first : UInt8) (s : σ) :
    readSelected nextByte first s = readChar nextByte first s := by
  unfold readSelected readChar
  split
  case isTrue => rfl
  case isFalse h =>
    rw [announcedLength_eq h]
    change EStateM.bind _ _ s = EStateM.bind _ _ s
    unfold EStateM.bind
    rcases exists_gives nextByte (leadingOnes first - 1) s with
      ⟨bytes, t, hlen, hgives⟩ | ⟨bytes, t, r, e, u, hlt, hgives, hbreaks⟩
    · have hselected : bytes.length + 1 = selectedLength first := by
        have hbounds := selectedLength_bounds first
        rw [selectedLength, if_neg h] at hbounds ⊢
        omega
      rw [← hlen, readContinuation_of_gives hgives]
      dsimp only
      rewrite [firstChar?_eq_decode hselected]
      rfl
    · rw [readContinuation_of_breaks hgives hbreaks hlt]

theorem readChar_of_gives (h : Gives nextByte bytes s t)
    (hlen : bytes.length + 1 = selectedLength first) :
    readChar nextByte first s =
      match decode? (first :: bytes) with
      | some c => .ok c t
      | none => .error .invalidUtf8 t := by
  rw [readChar_eq_decode, ← hlen, Nat.add_sub_cancel, readContinuation_of_gives h]

theorem readChar_of_breaks (h : Gives nextByte bytes s t) (hbreaks : Breaks nextByte r e t u)
    (hlt : bytes.length + 1 < selectedLength first) : readChar nextByte first s = .error e u := by
  rw [readChar_eq_decode, readContinuation_of_breaks h hbreaks (Nat.lt_sub_of_add_lt hlt)]

theorem readChar_eq_ok_iff (h : Gives nextByte bytes s t)
    (hlen : bytes.length + 1 = selectedLength first) :
    readChar nextByte first s = .ok c u ↔ encode c = first :: bytes ∧ t = u := by
  rw [readChar_of_gives h hlen, @eq_comm _ (encode c), ← decode?_eq_some_iff]
  cases decode? (first :: bytes) <;> simp

/-- What reading a character comes to, by its first byte and by what the reads after it come to. -/
structure ReadsChar (nextByte : EStateM SourceError σ (Option UInt8)) (first : UInt8) (s : σ)
    (reads : List ByteRead) : Prop where
  /-- These are the reads that are made. -/
  made : ResultsMatch (fun notes t => notes = (t, reads))
    (readChar (noted nextByte) first (s, [])) (readChar nextByte first s)
  /-- A character is read iff all bytes together are those that it is written as. -/
  ok_iff : ∀ c, (∃ t, readChar nextByte first s = .ok c t) ↔
    ∃ bytes : List UInt8, reads = bytes.map .byte ∧ encode c = first :: bytes
  /-- The stream is left where it has given the bytes of the character. -/
  gives : ∀ c t, readChar nextByte first s = .ok c t → Gives nextByte (encode c).tail s t
  length_le : reads.length ≤ 3
  length_lt : reads.length < selectedLength first
  /-- Nothing is read after a read that gives no byte. -/
  before_last : ∀ r ∈ reads.dropLast, ∃ b, r = .byte b
  /-- Nothing but such a read makes the bytes fewer than those that are selected. -/
  complete : (∀ r ∈ reads, ∃ b, r = .byte b) → reads.length + 1 = selectedLength first
  /-- A failure of the reader is the error. -/
  of_failed : ∀ e, .error e ∈ reads → ∃ t, readChar nextByte first s = .error e t
  /-- There is no other error but that the bytes are no character. -/
  cause : ∀ e t, readChar nextByte first s = .error e t → e = .invalidUtf8 ∨ .error e ∈ reads

theorem readsChar_of_gives (h : Gives nextByte bytes s t)
    (hlen : bytes.length + 1 = selectedLength first) :
    ReadsChar nextByte first s (bytes.map .byte) := by
  have hread := readChar_of_gives h hlen
  have hnoted := readChar_of_gives (h.noted []) hlen
  have hbounds := selectedLength_bounds first
  have hcount : (bytes.map ByteRead.byte).length = bytes.length := List.length_map _
  constructor
  case made =>
    rw [hread, hnoted]
    cases decode? (first :: bytes) with
    | some c => exact .ok c rfl
    | none => exact .error SourceError.invalidUtf8 rfl
  case ok_iff =>
    intro c
    constructor
    · rintro ⟨u, hu⟩
      exact ⟨bytes, rfl, ((readChar_eq_ok_iff h hlen).mp hu).1⟩
    · rintro ⟨bytes', hbytes, hc⟩
      obtain rfl := ByteRead.byte_injective.list_map hbytes
      exact ⟨t, (readChar_eq_ok_iff h hlen).mpr ⟨hc, rfl⟩⟩
  case gives =>
    intro c u hu
    obtain ⟨hc, rfl⟩ := (readChar_eq_ok_iff h hlen).mp hu
    rw [hc]
    exact h
  case length_le => omega
  case length_lt => omega
  case before_last =>
    exact fun r hr => ByteRead.exists_byte_of_mem ((List.dropLast_sublist _).mem hr)
  case complete => exact fun _ => hcount.symm ▸ hlen
  case of_failed =>
    intro e he
    obtain ⟨b, hb⟩ := ByteRead.exists_byte_of_mem he
    cases hb
  case cause =>
    intro e u hu
    rw [hread] at hu
    cases hdecode : decode? (first :: bytes) with
    | some c => rw [hdecode] at hu; cases hu
    | none => rw [hdecode] at hu; cases hu; exact Or.inl rfl

theorem readsChar_of_breaks (h : Gives nextByte bytes s t) (hbreaks : Breaks nextByte r e t u)
    (hlt : bytes.length + 1 < selectedLength first) :
    ReadsChar nextByte first s (bytes.map .byte ++ [r]) := by
  have hread := readChar_of_breaks h hbreaks hlt
  have hnoted := readChar_of_breaks (h.noted []) (hbreaks.noted _) hlt
  have hbounds := selectedLength_bounds first
  have hcount : (bytes.map ByteRead.byte ++ [r]).length = bytes.length + 1 := by simp
  have hlast : r ∈ bytes.map ByteRead.byte ++ [r] :=
    List.mem_append_right _ (List.mem_singleton_self r)
  constructor
  case made =>
    rw [hread, hnoted]
    exact .error e rfl
  case ok_iff =>
    intro c
    constructor
    · rintro ⟨v, hv⟩
      rw [hread] at hv
      cases hv
    · rintro ⟨bytes', hbytes, -⟩
      rw [hbytes] at hlast
      obtain ⟨b, hb⟩ := ByteRead.exists_byte_of_mem hlast
      exact absurd hb (hbreaks.not_byte b)
  case gives =>
    intro c v hv
    rw [hread] at hv
    cases hv
  case length_le => omega
  case length_lt => omega
  case before_last =>
    intro r' hr
    rw [List.dropLast_concat] at hr
    exact ByteRead.exists_byte_of_mem hr
  case complete =>
    intro hbyte
    obtain ⟨b, hb⟩ := hbyte r hlast
    exact absurd hb (hbreaks.not_byte b)
  case of_failed =>
    intro e' he
    rcases List.mem_append.mp he with he | he
    · obtain ⟨b, hb⟩ := ByteRead.exists_byte_of_mem he
      cases hb
    · obtain rfl := List.mem_singleton.mp he
      exact ⟨u, hbreaks.eq_of_error ▸ hread⟩
  case cause =>
    intro e' v hv
    rw [hread] at hv
    cases hv
    refine hbreaks.cause.imp_right fun hr => ?_
    rw [← hr]
    exact hlast

/-- To read the bytes that are selected and tell whether they are a text is to read a character, on
every stream.  It is exact and bounded, and where the bytes of a character are there nothing else is
read. -/
theorem readChar_exact :
    (∀ {σ : Type} (nextByte : EStateM SourceError σ (Option UInt8)) (first : UInt8) (s : σ),
      readSelected nextByte first s = readChar nextByte first s ∧
        ∃ reads, ReadsChar nextByte first s reads) ∧
    ∀ (c : Char) (bytes : List UInt8), ∃ first tail, encode c = first :: tail ∧
      readChar ByteSource.nextByte first (tail ++ bytes) = .ok c bytes := by
  constructor
  · intro σ nextByte first s
    refine ⟨readSelected_eq first s, ?_⟩
    have hbounds := selectedLength_bounds first
    rcases exists_gives nextByte (selectedLength first - 1) s with
      ⟨bytes, t, hlen, hgives⟩ | ⟨bytes, t, r, e, u, hlt, hgives, hbreaks⟩
    · exact ⟨_, readsChar_of_gives hgives (by omega)⟩
    · exact ⟨_, readsChar_of_breaks hgives hbreaks (by omega)⟩
  · intro c bytes
    obtain ⟨first, tail, hc⟩ := List.exists_cons_of_ne_nil (decodes.encode_ne_nil c)
    exact ⟨first, tail, hc, readChar_encode hc bytes⟩

end JsonDoc.Utf8
