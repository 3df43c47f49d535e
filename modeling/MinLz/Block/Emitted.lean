import MinLz.Block.Emit
import MinLz.Block.Token

/-! # Encodings mean what was emitted

Each encoding of a token is read back by the format as that token. `Advances`
says so about the decoder as a whole: reading the encoding takes it from a
prefix of the source to a longer prefix. An encoder keeps `Emitted`, which says
the same about everything it has written so far.
-/

namespace MinLz.Block

/-- The forms of a run's length: none, or `k` extra bytes. -/
def RunForm (length k : Nat) : Prop :=
  (k = 0 ∧ 1 ≤ length ∧ length ≤ 29) ∨ (1 ≤ k ∧ k ≤ 3 ∧ 30 ≤ length ∧ length - 30 < 256 ^ k)

theorem literalExtra_form {length : Nat} (some : 1 ≤ length) (short : length < 2 ^ 24 + 30) :
    RunForm length (literalExtra length) := by
  rw [RunForm, literalExtra]
  split_ifs <;> omega

theorem repeatExtra_form {length : Nat} (some : 1 ≤ length) (short : length < 2 ^ 24) :
    RunForm length (repeatExtra length) := by
  rw [RunForm, repeatExtra, extraBytes]
  split_ifs <;> omega

section Headers

variable {b : Slice} {s : Nat} (offset : Nat)

theorem tag_of_holds {v : Nat} {bs : List UInt8} (h : b.Holds s (Slice.leBytes 1 v ++ bs))
    (small : v < 256) : (b.get s).toNat = v := by
  have word := (Slice.holds_append.mp h).1.word
  rw [pow_one, Nat.mod_eq_of_lt small] at word
  simpa [Slice.word] using word

theorem word_of_holds {k v : Nat} (h : b.Holds s (Slice.leBytes k v)) (small : v < 256 ^ k) :
    b.word k s = v := by
  rw [h.word, Nat.mod_eq_of_lt small]

theorem withLength_short {h : Header} (base : Nat) (inside : h.s ≤ b.len) :
    Token.withLength b h 0 base = some h := by
  simp [Token.withLength, inside]

theorem withLength_long {h : Header} {k base : Nat} (length : Nat) (inside : h.s + k ≤ b.len)
    (pos : 1 ≤ k) (read : b.word k h.s + base = length) :
    Token.withLength b h k base = some { h with length := length, s := h.s + k } := by
  rw [Token.withLength, if_pos inside, if_neg (by omega), read]

theorem header_runHead {kind length k : Nat} (h : b.Holds s (runHead kind length k))
    (inside : s + 1 + k ≤ b.len) (hkind : kind = 0 ∨ kind = 4) (form : RunForm length k) :
    Token.header b s offset = some ⟨decide (kind = 0), 0, length, offset, s + 1 + k⟩ := by
  cases k with
  | zero =>
      have range : 1 ≤ length ∧ length ≤ 29 := by
        rw [RunForm] at form
        omega
      have head : b.Holds s (Slice.leBytes 1 ((length - 1) * 8 + kind) ++ []) := by
        simpa [runHead_zero] using h
      have tag : (b.get s).toNat = (length - 1) * 8 + kind := tag_of_holds head (by omega)
      have none : ((length - 1) * 8 + kind) / 8 - 28 = 0 := by omega
      rw [Token.header_run offset (by omega), tag, none, withLength_short _ inside]
      have lit : (((length - 1) * 8 + kind) / 4 % 2 = 0) = (kind = 0) := by
        apply propext
        omega
      have field : ((length - 1) * 8 + kind) / 8 + 1 = length := by omega
      simp only [lit, field, Nat.add_zero]
  | succ k =>
      obtain ⟨_, k_le, range, fits⟩ := form.resolve_left (by omega)
      rw [runHead_succ] at h
      have tag : (b.get s).toNat = (29 + k) * 8 + kind := tag_of_holds h (by omega)
      have extra := word_of_holds (Slice.holds_append.mp h).2 fits
      have count : ((29 + k) * 8 + kind) / 8 - 28 = k + 1 := by omega
      rw [Slice.length_leBytes] at extra
      rw [Token.header_run offset (by omega), tag, count,
        withLength_long length inside (by omega) (by simp only [extra]; omega)]
      have lit : (((29 + k) * 8 + kind) / 4 % 2 = 0) = (kind = 0) := by
        apply propext
        omega
      simp only [lit]

theorem header_copy1Bytes {off length : Nat} (h : b.Holds s (copy1Bytes off length))
    (inside : s + (copy1Bytes off length).length ≤ b.len) (pos : 1 ≤ off) (near : off ≤ 1024)
    (long : 4 ≤ length) (short : length < 274) : Token.header b s offset =
      some ⟨false, 0, length, off, s + (copy1Bytes off length).length⟩ := by
  rw [copy1Bytes] at h inside ⊢
  split_ifs at h inside ⊢ with small
  · have value := word_of_holds h (by omega)
    have tag : (b.get s).toNat % 4 = 1 := by
      simp only [Slice.word] at value
      omega
    have none : ((off - 1) * 64 + (length - 4) * 4 + 1) / 4 % 16 / 15 = 0 := by omega
    have field : ((off - 1) * 64 + (length - 4) * 4 + 1) / 4 % 16 + 4 = length := by omega
    have back : ((off - 1) * 64 + (length - 4) * 4 + 1) / 64 + 1 = off := by omega
    rw [Slice.length_leBytes] at inside
    rw [Token.header_copy1 offset tag, value, none, withLength_short _ inside, field, back,
      Slice.length_leBytes]
  · rw [List.length_append, Slice.length_leBytes, Slice.length_leBytes] at inside ⊢
    have value := word_of_holds (Slice.holds_append.mp h).1 (by omega)
    have extra := word_of_holds (Slice.holds_append.mp h).2 (by omega)
    rw [Slice.length_leBytes] at extra
    have tag : (b.get s).toNat % 4 = 1 := by
      simp only [Slice.word] at value
      omega
    have one : ((off - 1) * 64 + 61) / 4 % 16 / 15 = 1 := by omega
    have back : ((off - 1) * 64 + 61) / 64 + 1 = off := by omega
    rw [Token.header_copy1 offset tag, value, one,
      withLength_long length inside (by omega) (by simp only [extra]; omega), back]

/-- The extra length bytes of a Copy2 or Copy3. -/
theorem copy_length {h : Header} {length : Nat} (long : 4 ≤ length) (bound : length < 2 ^ 24)
    (extra : b.Holds h.s (Slice.leBytes (copyExtra length) (length - 64)))
    (inside : h.s + copyExtra length ≤ b.len) (field : h.length = copyField length + 4) :
    Token.withLength b h (copyField length - 60) 64 =
      some { h with length := length, s := h.s + copyExtra length } := by
  have range : length - 64 < 256 ^ copyExtra length ∨ length ≤ 64 := by
    rw [copyExtra, extraBytes]
    split_ifs <;> omega
  have read := extra.word
  by_cases short : length ≤ 64
  · have none : copyExtra length = 0 := if_pos short
    have own : copyField length = length - 4 := if_pos short
    have same : h.length = length := by omega
    rw [none] at inside ⊢
    rw [own, Nat.sub_eq_zero_of_le (by omega), withLength_short _ inside]
    simp [← same]
  · have own : copyField length = 60 + copyExtra length := if_neg short
    have pos : 1 ≤ copyExtra length := by
      rw [copyExtra, extraBytes]
      split_ifs <;> omega
    rw [Nat.mod_eq_of_lt (range.resolve_right short)] at read
    rw [own, Nat.add_sub_cancel_left,
      withLength_long length inside pos (by rw [read]; omega)]

theorem copyField_lt (length : Nat) : copyField length < 64 := by
  rw [copyField, copyExtra, extraBytes]
  split_ifs <;> omega

theorem length_copy2Bytes (off length : Nat) :
    (copy2Bytes off length).length = 3 + copyExtra length := by
  simp only [copy2Bytes, List.length_append, Slice.length_leBytes]

theorem header_copy2Bytes {off length : Nat} (h : b.Holds s (copy2Bytes off length))
    (inside : s + (copy2Bytes off length).length ≤ b.len) (far : 64 ≤ off) (near : off ≤ 65599)
    (long : 4 ≤ length) (bound : length < 2 ^ 24) : Token.header b s offset =
      some ⟨false, 0, length, off, s + (copy2Bytes off length).length⟩ := by
  have field := copyField_lt length
  rw [length_copy2Bytes] at inside ⊢
  rw [copy2Bytes, List.append_assoc] at h
  have tag : (b.get s).toNat = copyField length * 4 + 2 := tag_of_holds h (by omega)
  obtain ⟨_, rest⟩ := Slice.holds_append.mp h
  obtain ⟨offBytes, extra⟩ := Slice.holds_append.mp rest
  simp only [Slice.length_leBytes, minCopy2Offset_eq] at offBytes extra
  have value := word_of_holds offBytes (by omega)
  have own : (copyField length * 4 + 2) / 4 = copyField length := by omega
  have back : off - 64 + 64 = off := by omega
  rw [Token.header_copy2 offset (by omega), tag, own, value, minCopy2Offset_eq, back,
    copy_length long bound extra (by simp only; omega) rfl]
  simp only [Nat.add_assoc]

theorem length_copy3Bytes (off length lits : Nat) :
    (copy3Bytes off length lits).length = 4 + copyExtra length := by
  simp only [copy3Bytes, List.length_append, Slice.length_leBytes]

theorem header_copy3Bytes {off length lits : Nat} (h : b.Holds s (copy3Bytes off length lits))
    (inside : s + (copy3Bytes off length lits).length ≤ b.len) (far : 65536 ≤ off)
    (near : off ≤ maxCopy3Offset) (few : lits ≤ 3) (long : 4 ≤ length) (bound : length < 2 ^ 24) :
    Token.header b s offset =
      some ⟨false, lits, length, off, s + (copy3Bytes off length lits).length⟩ := by
  have field := copyField_lt length
  rw [maxCopy3Offset_eq] at near
  rw [length_copy3Bytes] at inside ⊢
  rw [copy3Bytes, minCopy3Offset_eq] at h
  obtain ⟨head, extra⟩ := Slice.holds_append.mp h
  rw [Slice.length_leBytes] at extra
  have value := word_of_holds head (by omega)
  have byte := b.word_mod 1 3 s
  rw [value] at byte
  simp only [Slice.word] at byte
  have kind : (b.get s).toNat % 4 = 3 := by omega
  have fused : ((off - 65536) * 2048 + copyField length * 32 + lits * 8 + 7) / 8 % 4 = lits := by
    omega
  have own : ((off - 65536) * 2048 + copyField length * 32 + lits * 8 + 7) / 32 % 64 =
      copyField length := by omega
  have back : ((off - 65536) * 2048 + copyField length * 32 + lits * 8 + 7) / 2048 + 65536 =
      off := by omega
  rw [Token.header_copy3 offset kind (by omega) (by omega), value, fused, own, minCopy3Offset_eq,
    back, copy_length long bound extra (by simp only; omega) rfl]
  simp only [Nat.add_assoc]

theorem header_fused2Bytes {off length : Nat} {lits : List UInt8}
    (h : b.Holds s (fused2Bytes lits off length))
    (inside : s + (fused2Bytes lits off length).length ≤ b.len) (one : 1 ≤ lits.length)
    (few : lits.length ≤ 4) (far : 64 ≤ off) (near : off ≤ 65599) (long : 4 ≤ length)
    (short : length ≤ 11) : Token.header b s offset =
      some ⟨false, lits.length, length, off, s + 3⟩ := by
  simp only [fused2Bytes, List.length_append, Slice.length_leBytes] at inside
  rw [fused2Bytes, List.append_assoc, minCopy2Offset_eq] at h
  have tag : (b.get s).toNat = (length - 4) * 32 + (lits.length - 1) * 8 + 3 :=
    tag_of_holds h (by omega)
  have offBytes := (Slice.holds_append.mp (Slice.holds_append.mp h).2).1
  rw [Slice.length_leBytes] at offBytes
  have low := word_of_holds offBytes (by omega)
  have value : b.word 4 s =
      (b.get s).toNat + 256 * (b.word 2 (s + 1) + 65536 * b.word 1 (s + 3)) := by
    rw [b.word_add 1 3 s, b.word_add 2 1 (s + 1)]
    simp [Slice.word, Nat.add_assoc]
  rw [tag, low] at value
  have byte := b.word_lt 1 (s + 3)
  rw [Token.header_fused2 offset (by omega) (by omega) (by omega), value, minCopy2Offset_eq]
  have count : ((length - 4) * 32 + (lits.length - 1) * 8 + 3 +
      256 * (off - 64 + 65536 * b.word 1 (s + 3))) / 8 % 4 + 1 = lits.length := by omega
  have own : ((length - 4) * 32 + (lits.length - 1) * 8 + 3 +
      256 * (off - 64 + 65536 * b.word 1 (s + 3))) / 32 % 8 + 4 = length := by omega
  have back : ((length - 4) * 32 + (lits.length - 1) * 8 + 3 +
      256 * (off - 64 + 65536 * b.word 1 (s + 3))) / 256 % 65536 + 64 = off := by omega
  rw [count, own, back]

end Headers

/-- What an encoding means: with last offset `r`, the tokens of `bs` append
    `lits` to the output and then `length` bytes from `off` back, and leave `off`
    as the last offset. -/
def Means (bs lits : List UInt8) (r off length : Nat) : Prop :=
  ∀ (b : Slice) (dlen s : Nat) (out : List UInt8), b.Holds s bs → s + bs.length ≤ b.len →
    (0 < length → 1 ≤ off ∧ off ≤ out.length + lits.length) →
    out.length + lits.length + length ≤ dlen →
    Token.Steps b dlen ⟨s, out, r⟩ ⟨s + bs.length, Lz77.copy off length (out ++ lits), off⟩

/-- The rest of a copy, as tokens of their own. -/
theorem Means.append {as bs lits : List UInt8} {r off m n length : Nat} (some : 0 < m)
    (whole : m + n = length) (first : Means as lits r off m) (next : Means bs [] off off n) :
    Means (as ++ bs) lits r off length := by
  intro b dlen s out holds room back fits
  subst whole
  obtain ⟨hold, hold'⟩ := Slice.holds_append.mp holds
  rw [List.length_append, ← Nat.add_assoc] at room ⊢
  obtain ⟨pos, near⟩ := back (by omega)
  have head := first b dlen s out hold (by omega) (fun _ => ⟨pos, near⟩) (by omega)
  have tail := next b dlen _ (Lz77.copy off m (out ++ lits)) hold' room
    (fun _ => ⟨pos, by simp; omega⟩) (by simp; omega)
  rw [List.append_nil, Lz77.copy_add] at tail
  exact head.trans tail

theorem means_literal {lit : List UInt8} (r : Nat) (short : lit.length < 2 ^ 24 + 30) :
    Means (literalBytes lit) lit r r 0 := by
  intro b dlen s out holds room _ fits
  rw [Lz77.copy]
  by_cases empty : lit.length = 0
  · obtain rfl := List.eq_nil_of_length_eq_zero empty
    rw [literalBytes, if_pos List.length_nil, List.append_nil]
    exact Relation.ReflTransGen.refl
  · simp only [literalBytes, empty, if_false, List.length_append, length_runHead] at holds room ⊢
    obtain ⟨head, text⟩ := Slice.holds_append.mp holds
    have run := header_runHead r head (by omega) (.inl rfl) (literalExtra_form (by omega) short)
    rw [length_runHead, ← Nat.add_assoc] at text
    apply Relation.ReflTransGen.single
    simp only [Token.step, run, decide_true, if_true, text.list_eq]
    rw [if_pos (by omega)]
    simp only [Nat.add_assoc]

/-- Literals of their own before a copy. -/
theorem Means.after {bs lits : List UInt8} {r off length : Nat} (next : Means bs [] r off length)
    (short : lits.length < 2 ^ 24 + 30) : Means (literalBytes lits ++ bs) lits r off length := by
  intro b dlen s out holds room back fits
  obtain ⟨hold, hold'⟩ := Slice.holds_append.mp holds
  rw [List.length_append, ← Nat.add_assoc] at room ⊢
  have head := means_literal r short b dlen s out hold (by omega)
    (fun some => absurd some (lt_irrefl 0)) (by omega)
  have tail := next b dlen _ (out ++ lits) hold' room (fun some => by simpa using back some)
    (by simpa using fits)
  rw [Lz77.copy] at head
  rw [List.append_nil] at tail
  exact head.trans tail

/-- A token that copies, after the literals fused with it. -/
theorem means_copy {bs lits : List UInt8} {r off length : Nat} (some : 0 < length)
    (parsed : ∀ b s, b.Holds s bs → s + bs.length ≤ b.len → ∃ h, Token.header b s r = .some h ∧
      h.literal = false ∧ h.lits = lits.length ∧ h.length = length ∧ h.offset = off ∧
      h.s + lits.length = s + bs.length ∧ b.list h.s lits.length = lits) :
    Means bs lits r off length := by
  intro b dlen s out holds room back fits
  obtain ⟨h, run, copy, count, len, offset, next, text⟩ := parsed b s holds room
  obtain ⟨pos, near⟩ := back some
  apply Relation.ReflTransGen.single
  simp only [Token.step, run, copy, count, len, offset, text, next, List.length_append]
  simp only [room, pos, near, fits, and_self, if_true]
  rfl

theorem means_repeat {length : Nat} (r : Nat) (one : 1 ≤ length) (short : length < 2 ^ 24) :
    Means (repeatBytes length) [] r r length := by
  have size : (repeatBytes length).length = 1 + repeatExtra length := length_runHead 4 length _
  apply means_copy one
  intro b s holds room
  rw [size] at room ⊢
  exact ⟨_, header_runHead r holds (by omega) (.inr rfl) (repeatExtra_form one short), rfl, rfl, rfl,
    rfl, by simp only [List.length_nil]; omega, rfl⟩

section Copies

variable {off length : Nat} (r : Nat) (long : 4 ≤ length)
include long

theorem means_copy1 (pos : 1 ≤ off) (near : off ≤ 1024) (short : length < 274) :
    Means (copy1Bytes off length) [] r off length := by
  apply means_copy (by omega)
  intro b s holds room
  exact ⟨_, header_copy1Bytes r holds room pos near long short, rfl, rfl, rfl, rfl, rfl, rfl⟩

theorem means_copy2 (far : 64 ≤ off) (near : off ≤ 65599) (short : length < 2 ^ 24) :
    Means (copy2Bytes off length) [] r off length := by
  apply means_copy (by omega)
  intro b s holds room
  exact ⟨_, header_copy2Bytes r holds room far near long short, rfl, rfl, rfl, rfl, rfl, rfl⟩

theorem means_copyLits3 {lits : List UInt8} (few : lits.length ≤ 3) (far : 65536 ≤ off)
    (near : off ≤ maxCopy3Offset) (short : length < 2 ^ 24) :
    Means (copyLits3Bytes lits off length) lits r off length := by
  apply means_copy (by omega)
  intro b s holds room
  obtain ⟨head, text⟩ := Slice.holds_append.mp holds
  rw [copyLits3Bytes, List.length_append] at room ⊢
  exact ⟨_, header_copy3Bytes r head (by omega) far near few long short, rfl, rfl, rfl, rfl,
    Nat.add_assoc _ _ _, text.list_eq⟩

theorem means_copy3 (far : 65536 ≤ off) (near : off ≤ maxCopy3Offset) (short : length < 2 ^ 24) :
    Means (copy3Bytes off length 0) [] r off length := by
  have bare : copyLits3Bytes [] off length = copy3Bytes off length 0 := List.append_nil _
  rw [← bare]
  exact means_copyLits3 r long (Nat.zero_le _) far near short

theorem means_emitCopy (pos : 1 ≤ off) (near : off ≤ maxCopy3Offset) (short : length < 2 ^ 24) :
    Means (copyBytes off length) [] r off length := by
  rw [copyBytes, maxCopy2Offset_eq, maxCopy1Offset_eq]
  split_ifs with far close small
  · exact means_copy3 r long (by omega) near short
  · exact means_copy1 r long pos close small
  · have head : Means (copy1Bytes off 18) [] r off 18 :=
      means_copy1 r (by omega) pos close (by omega)
    have rest : Means (repeatBytes (length - 18)) [] off off (length - 18) :=
      means_repeat off (by omega) (by omega)
    exact head.append (by omega) (by omega) rest
  · exact means_copy2 r long (by omega) (by omega) short

variable {lits : List UInt8} (one : 1 ≤ lits.length) (few : lits.length ≤ 4) (far : 64 ≤ off)
  (near : off ≤ 65599)
include one few far near

theorem means_fused2 (short : length ≤ 11) :
    Means (fused2Bytes lits off length) lits r off length := by
  have size : (fused2Bytes lits off length).length = 3 + lits.length := by
    simp [fused2Bytes]
    omega
  apply means_copy (by omega)
  intro b s holds room
  have parsed := header_fused2Bytes r holds room one few far near long short
  refine ⟨_, parsed, rfl, rfl, rfl, rfl, by simp only; omega, ?_⟩
  exact (Slice.holds_append.mp holds).2.list_eq

theorem means_emitCopyLits2 (short : length < 2 ^ 24) :
    Means (copyLits2Bytes lits off length) lits r off length := by
  rw [copyLits2Bytes, copy2LitMaxLen_eq]
  split_ifs with small
  · exact means_fused2 r long one few far near small
  · have head : Means (fused2Bytes lits off 11) lits r off 11 :=
      means_fused2 r (by omega) one few far near le_rfl
    have rest : Means (repeatBytes (length - 11)) [] off off (length - 11) :=
      means_repeat off (by omega) (by omega)
    exact head.append (by omega) (by omega) rest

end Copies

/-- Reading `bs` takes the decoder of a block of `src` from the output
    `src[..i]` with last offset `r` to `src[..j]` with last offset `r'`. -/
def Advances (src : Slice) (bs : List UInt8) (i r j r' : Nat) : Prop :=
  ∀ (b : Slice) (d : Nat), b.Holds d bs → d + bs.length ≤ b.len →
    Token.decodeFrom b src.len ⟨d, src.list 0 i, r⟩ =
      Token.decodeFrom b src.len ⟨d + bs.length, src.list 0 j, r'⟩

theorem list_eq_initial (src : Slice) (n : Nat) : src.list 0 n = Lz77.initial src.get n := by
  simp [Slice.list, Lz77.initial]

/-- A match found in the source is what the decoder's copy needs. -/
theorem copy_list {src : Slice} {offset i n : Nat} (pos : 1 ≤ offset) (back : offset ≤ i)
    (same : src.Same (i - offset) i n) :
    Lz77.copy offset n (src.list 0 i) = src.list 0 (i + n) := by
  rw [list_eq_initial, list_eq_initial]
  exact Lz77.copy_prefix src.get n i pos back same

section Tokens

variable {src : Slice} {i r : Nat}

theorem advances_literal {j : Nat} (forward : i ≤ j) (inside : j ≤ src.len)
    (short : j - i < 2 ^ 24) : Advances src (literalBytes (src.list i (j - i))) i r j r := by
  intro b d holds room
  have all : src.list 0 i ++ src.list i (j - i) = src.list 0 j := by
    have := src.list_append 0 i (j - i)
    rwa [Nat.zero_add, Nat.add_sub_cancel' forward] at this
  have steps := means_literal r (by rw [Slice.length_list]; omega) b src.len d (src.list 0 i) holds
    room (fun some => absurd some (lt_irrefl 0)) (by simp; omega)
  rw [all] at steps
  exact steps.decodeFrom_eq

/-- A copy, after `k` fused literals, of a match found in the source. -/
theorem Means.advances {bs : List UInt8} {off length k : Nat}
    (means : Means bs (src.list i k) r off length) (pos : 1 ≤ off) (back : off ≤ i + k)
    (same : src.Same (i + k - off) (i + k) length) (inside : i + k + length ≤ src.len) :
    Advances src bs i r (i + k + length) off := by
  intro b d holds room
  have all : src.list 0 i ++ src.list i k = src.list 0 (i + k) := by
    simpa using src.list_append 0 i k
  have steps := means b src.len d (src.list 0 i) holds room (fun _ => ⟨pos, by simpa using back⟩)
    (by simpa using inside)
  rw [all, copy_list pos back same] at steps
  exact steps.decodeFrom_eq

theorem advances_repeat {length : Nat} (one : 1 ≤ length) (short : length < 2 ^ 24) (pos : 1 ≤ r)
    (back : r ≤ i) (same : src.Same (i - r) i length) (inside : i + length ≤ src.len) :
    Advances src (repeatBytes length) i r (i + length) r :=
  (means_repeat r one short).advances (k := 0) pos back same inside

theorem advances_emitCopy {off length : Nat} (pos : 1 ≤ off) (near : off ≤ maxCopy3Offset)
    (long : 4 ≤ length) (short : length < 2 ^ 24) (back : off ≤ i)
    (same : src.Same (i - off) i length) (inside : i + length ≤ src.len) :
    Advances src (copyBytes off length) i r (i + length) off :=
  (means_emitCopy r long pos near short).advances (k := 0) pos back same inside

theorem advances_emitCopyLits2 {off length k : Nat} (one : 1 ≤ k) (few : k ≤ 4) (far : 64 ≤ off)
    (near : off ≤ 65599) (long : 4 ≤ length) (short : length < 2 ^ 24) (back : off ≤ i + k)
    (same : src.Same (i + k - off) (i + k) length) (inside : i + k + length ≤ src.len) :
    Advances src (copyLits2Bytes (src.list i k) off length) i r (i + k + length) off := by
  have means : Means _ (src.list i k) r off length :=
    means_emitCopyLits2 r long (by simpa using one) (by simpa using few) far near short
  exact means.advances (by omega) back same inside

theorem advances_emitCopyLits3 {off length k : Nat} (few : k ≤ 3) (far : 65536 ≤ off)
    (near : off ≤ maxCopy3Offset) (long : 4 ≤ length) (short : length < 2 ^ 24)
    (back : off ≤ i + k) (same : src.Same (i + k - off) (i + k) length)
    (inside : i + k + length ≤ src.len) :
    Advances src (copyLits3Bytes (src.list i k) off length) i r (i + k + length) off := by
  have means : Means _ (src.list i k) r off length :=
    means_copyLits3 r long (by simpa using few) far near short
  exact means.advances (by omega) back same inside

end Tokens

/-- The first `d` bytes of `dst` encode `src[..nextEmit]`, and leave the decoder
    with the last offset `offset`. -/
def Emitted (src dst : Slice) (d nextEmit offset : Nat) : Prop :=
  ∀ b : Slice, (∀ i < d, b.get i = dst.get i) → d ≤ b.len →
    Token.decodeFrom b src.len Token.start =
      Token.decodeFrom b src.len ⟨d, src.list 0 nextEmit, offset⟩

theorem emitted_start (src dst : Slice) : Emitted src dst 0 0 1 := fun _ _ _ => rfl

theorem Emitted.append {src dst : Slice} {d i r j r' : Nat} {bs : List UInt8}
    (before : Emitted src dst d i r) (next : Advances src bs i r j r') :
    Emitted src (dst.splice d bs) (d + bs.length) j r' := by
  intro b same room
  have old : ∀ k < d, b.get k = dst.get k := by
    intro k hk
    rw [same k (by omega), Slice.get_splice_lt _ _ hk]
  have holds : b.Holds d bs := by
    intro k hk
    rw [same (d + k) (by omega), Slice.get_splice_add _ _ _ _ hk]
  rw [before b old (by omega), next b d holds room]

/-- An encoder that has emitted all of `src` has written a block of it. -/
theorem Emitted.decode {src dst : Slice} {d r : Nat} (h : Emitted src dst d src.len r) :
    Token.decode (Slice.ofList (dst.list 0 d)) src.len = some src.toList := by
  have size : (Slice.ofList (dst.list 0 d)).len = d := by simp
  have run := h (Slice.ofList (dst.list 0 d)) (fun i hi => by simp [Slice.ofList, hi]) size.ge
  rw [Token.decode, run, Token.decodeFrom_end size.le, if_pos (src.length_list 0 src.len)]
  rfl

end MinLz.Block
