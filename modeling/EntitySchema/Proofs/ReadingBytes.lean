/-
**What is read at a position of some bytes.**

The bytes of ASCII characters are the characters themselves, and no others have such bytes.  What a
reader finds at a position depends on what is left of the bytes from there on; that some characters
*stand* at the position says that it is these and whatever comes after them.

Main definitions:

* `IsoReading.ascii` — the bytes of ASCII characters;
* `IsoReading.Stands` — **characters stand at a position of some bytes.**

Main results:

* `IsoReading.utf8EncodeChar_cases`, `IsoReading.ascii_prefix` — **ASCII characters stand for
  themselves only**;
* `IsoReading.number?_of_drop` — a number by a fixed number of digits is read back;
* `IsoReading.stands_append`, `IsoReading.stands_cons` — what stands there part by part;
* `IsoReading.number?_eq_some_iff` — **a number is read just where its digits stand.**
-/

import EntitySchema.Calendar.IsoReading
import EntitySchema.Calendar.IsoText
import Mathlib.Algebra.Group.Nat.Defs

set_option autoImplicit false

namespace EntitySchema

namespace IsoReading

/-! ### Bytes of ASCII texts -/

/-- The bytes of characters that are ASCII. -/
def ascii (cs : List Char) : Bytes := cs.map byte

@[simp] theorem ascii_nil : ascii [] = [] := rfl

@[simp] theorem ascii_cons (c : Char) (cs : List Char) : ascii (c :: cs) = byte c :: ascii cs := rfl

@[simp] theorem ascii_append (cs ds : List Char) : ascii (cs ++ ds) = ascii cs ++ ascii ds :=
  List.map_append

@[simp] theorem length_ascii (cs : List Char) : (ascii cs).length = cs.length :=
  List.length_map _

/-- The bytes of an ASCII text are those of its characters. -/
theorem bytesOf_ofList {cs : List Char} (h : ∀ c ∈ cs, c.toNat < 128) :
    bytesOf (String.ofList cs) = ascii cs := by
  unfold bytesOf
  rw [String.toList_ofList]
  induction cs with
  | nil => rfl
  | cons c cs ih =>
    have hc : c.val.toNat ≤ 127 := by
      have := h c (List.mem_cons_self ..)
      unfold Char.toNat at this
      omega
    have one : String.utf8EncodeChar c = [byte c] := by
      simp only [String.utf8EncodeChar, hc, if_true]
      rfl
    rw [List.flatMap_cons, one, ih fun d hd => h d (List.mem_cons_of_mem c hd)]
    rfl

/-! ### Bytes of characters -/

/-- A character is ASCII and its byte, or it is several bytes none of which is ASCII, and the first
tells how many. -/
theorem utf8EncodeChar_cases (c : Char) :
    (c.toNat < 128 ∧ String.utf8EncodeChar c = [byte c]) ∨
      ∃ b bs, String.utf8EncodeChar c = b :: bs ∧ width b = bs.length + 1 ∧
        ∀ e ∈ b :: bs, 128 ≤ e.toNat := by
  have two : ∀ n < 32, width (UInt8.ofNat (n + 192)) = 2 ∧ 128 ≤ (UInt8.ofNat (n + 192)).toNat := by
    decide
  have three : ∀ n < 16,
      width (UInt8.ofNat (n + 224)) = 3 ∧ 128 ≤ (UInt8.ofNat (n + 224)).toNat := by
    decide
  have four : ∀ n < 8, width (UInt8.ofNat (n + 240)) = 4 ∧ 128 ≤ (UInt8.ofNat (n + 240)).toNat := by
    decide
  have later : ∀ n < 64, 128 ≤ (UInt8.ofNat (n + 128)).toNat := by decide
  have rest (n : Nat) : 128 ≤ (UInt8.ofNat (n % 64 + 128)).toNat :=
    later _ (Nat.mod_lt _ (by decide))
  simp only [String.utf8EncodeChar]
  split
  · next ascii => exact .inl ⟨Nat.lt_succ_of_le ascii, rfl⟩
  · right
    split
    · obtain ⟨size, high⟩ := two (c.val.toNat / 64 % 32) (Nat.mod_lt _ (by decide))
      exact ⟨_, _, rfl, size, by simp only [List.forall_mem_cons, high, rest, List.not_mem_nil,
        false_imp_iff, implies_true, and_true]⟩
    · split
      · obtain ⟨size, high⟩ := three (c.val.toNat / 4096 % 16) (Nat.mod_lt _ (by decide))
        exact ⟨_, _, rfl, size, by simp only [List.forall_mem_cons, high, rest, List.not_mem_nil,
          false_imp_iff, implies_true, and_true]⟩
      · obtain ⟨size, high⟩ := four (c.val.toNat / 262144 % 8) (Nat.mod_lt _ (by decide))
        exact ⟨_, _, rfl, size, by simp only [List.forall_mem_cons, high, rest, List.not_mem_nil,
          false_imp_iff, implies_true, and_true]⟩

theorem toNat_byte {c : Char} (hc : c.toNat < 128) : (byte c).toNat = c.toNat := by
  rw [byte, Nat.toUInt8, UInt8.toNat_ofNat']
  omega

/-- ASCII characters have different bytes. -/
theorem eq_of_byte_eq {c d : Char} (hc : c.toNat < 128) (hd : d.toNat < 128)
    (h : byte c = byte d) : c = d := by
  rw [← UInt8.toNat_inj, toNat_byte hc, toNat_byte hd] at h
  exact Char.toNat_inj.1 h

/-- The first byte of a character tells how many there are. -/
theorem width_of_utf8EncodeChar (c : Char) :
    ∃ b bs, String.utf8EncodeChar c = b :: bs ∧ width b = bs.length + 1 := by
  rcases utf8EncodeChar_cases c with ⟨low, code⟩ | ⟨b, bs, code, size, -⟩
  · have small : byte c < 0x80 := UInt8.lt_iff_toNat_lt.2 (toNat_byte low ▸ low)
    exact ⟨byte c, [], code, by rw [width, if_pos small]; rfl⟩
  · exact ⟨b, bs, code, size⟩

/-- **ASCII characters stand for themselves only**: a text whose bytes start with theirs starts with
them. -/
theorem ascii_prefix {cs ds : List Char} {rest : Bytes} (hcs : ∀ c ∈ cs, c.toNat < 128)
    (h : ds.flatMap String.utf8EncodeChar = ascii cs ++ rest) :
    ∃ after, ds = cs ++ after ∧ after.flatMap String.utf8EncodeChar = rest := by
  induction cs generalizing ds with
  | nil => exact ⟨ds, rfl, h⟩
  | cons c cs ih =>
    obtain ⟨hc, hcs⟩ := List.forall_mem_cons.1 hcs
    cases ds with
    | nil => cases h
    | cons d ds =>
      rw [List.flatMap_cons, ascii_cons, List.cons_append] at h
      rcases utf8EncodeChar_cases d with ⟨hd, code⟩ | ⟨b, bs, code, -, high⟩
      · rw [code, List.singleton_append] at h
        obtain ⟨first, others⟩ := List.cons.inj h
        obtain ⟨after, rfl, bytes⟩ := ih hcs others
        exact ⟨after, by rw [eq_of_byte_eq hd hc first, List.cons_append], bytes⟩
      · rw [code, List.cons_append] at h
        have low := high b (List.mem_cons_self ..)
        rw [(List.cons.inj h).1, toNat_byte hc] at low
        omega

/-- A byte that is ASCII is a character, and the text splits there. -/
theorem exists_split {cs : List Char} {before after : Bytes} {c : Char} (hc : c.toNat < 128)
    (h : cs.flatMap String.utf8EncodeChar = before ++ byte c :: after) :
    ∃ ds es, cs = ds ++ c :: es ∧ ds.flatMap String.utf8EncodeChar = before := by
  induction cs generalizing before with
  | nil => cases before <;> cases h
  | cons d cs ih =>
    rw [List.flatMap_cons] at h
    rcases List.append_eq_append_iff.1 h with ⟨rest, rfl, split⟩ | ⟨rest, code, split⟩
    · obtain ⟨ds, es, rfl, bytes⟩ := ih split
      exact ⟨d :: ds, es, rfl, by rw [List.flatMap_cons, bytes]⟩
    · cases rest with
      | nil =>
        obtain ⟨ds, es, rfl, bytes⟩ := @ih [] split.symm
        exact ⟨d :: ds, es, rfl,
          by rw [List.flatMap_cons, bytes, code, List.append_nil, List.append_nil]⟩
      | cons e rest =>
        obtain ⟨rfl, -⟩ := List.cons.inj split
        have mem : byte c ∈ String.utf8EncodeChar d :=
          code ▸ List.mem_append_right _ (List.mem_cons_self ..)
        rcases utf8EncodeChar_cases d with ⟨hd, single⟩ | ⟨b, bs, several, -, high⟩
        · have same := eq_of_byte_eq hc hd (List.mem_singleton.1 (single ▸ mem))
          have size := congrArg List.length (single.symm.trans code)
          simp only [List.length_cons, List.length_nil, List.length_append] at size
          obtain rfl : before = [] := List.length_eq_zero_iff.1 (by omega)
          exact ⟨[], cs, by rw [same, List.nil_append], rfl⟩
        · have low := high _ (several ▸ mem)
          rw [toNat_byte hc] at low
          omega

/-! ### Digits -/

/-- A digit as a character, and as the byte of it. -/
theorem digitChar_cases {P : Char → Nat → Prop} (h : ∀ d, d < 10 → P (Nat.digitChar d) d)
    (n : Nat) :
    P (Nat.digitChar (n % 10)) (n % 10) :=
  h (n % 10) (Nat.mod_lt n (by decide))

theorem isDigit_digitChar (n : Nat) : isDigit (byte (Nat.digitChar (n % 10))) = true :=
  digitChar_cases (P := fun c _ => isDigit (byte c) = true) (by decide) n

theorem toNat_digitChar (n : Nat) : (byte (Nat.digitChar (n % 10))).toNat - 48 = n % 10 :=
  digitChar_cases (P := fun c d => (byte c).toNat - 48 = d) (by decide) n

theorem toNat_digitChar_lt (n : Nat) : (Nat.digitChar (n % 10)).toNat < 128 :=
  digitChar_cases (P := fun c _ => c.toNat < 128) (by decide) n

/-- What holds of all digits holds of those of a number. -/
theorem forall_mem_fixedDigits {P : Char → Prop} (h : ∀ n, P (Nat.digitChar (n % 10))) {w n : Nat} :
    ∀ c ∈ fixedDigits w n, P c := by
  intro c hc
  induction w with
  | zero => simp [fixedDigits] at hc
  | succ w ih =>
    rw [fixedDigits, List.mem_cons] at hc
    rcases hc with rfl | hc
    · exact h _
    · exact ih hc

/-- The digits of a number, read after a number, are added behind it. -/
theorem foldl_fixedDigits (w n acc : Nat) :
    (ascii (fixedDigits w n)).foldl (fun acc b => acc * 10 + (b.toNat - 48)) acc =
      acc * 10 ^ w + n % 10 ^ w := by
  induction w generalizing acc with
  | zero => simp [fixedDigits, Nat.mod_one]
  | succ w ih =>
    have split : n % 10 ^ (w + 1) = n / 10 ^ w % 10 * 10 ^ w + n % 10 ^ w := by
      rw [Nat.pow_succ, Nat.mod_mul, Nat.mul_comm, Nat.add_comm]
    simp only [fixedDigits, ascii_cons, List.foldl_cons, toNat_digitChar, Nat.pow_eq]
    rw [ih, split, Nat.pow_succ, Nat.add_mul, Nat.mul_assoc, Nat.mul_comm 10, Nat.add_assoc]

/-! ### What is read at a position -/

variable {s : Bytes} {p : Nat}

/-- What is left after a part of known length. -/
theorem drop_of_drop {part rest : Bytes} (h : s.drop p = part ++ rest) {w : Nat}
    (hw : part.length = w) : s.drop (p + w) = rest := by
  rw [← List.drop_drop, h, ← hw, List.drop_left]

/-- What is left after the digits of a number. -/
theorem drop_fixedDigits {w n : Nat} {rest : Bytes}
    (h : s.drop p = ascii (fixedDigits w n) ++ rest) : s.drop (p + w) = rest :=
  drop_of_drop h (by simp)

theorem drop_succ_of_drop {b : UInt8} {rest : Bytes} (h : s.drop p = b :: rest) :
    s.drop (p + 1) = rest :=
  have h' : s.drop p = [b] ++ rest := h
  drop_of_drop h' rfl

theorem byteAt_of_drop {b : UInt8} {rest : Bytes} (h : s.drop p = b :: rest) : byteAt s p = b := by
  have head : (s.drop p)[0]? = some b := by rw [h]; rfl
  rw [List.getElem?_drop, Nat.add_zero] at head
  simp [byteAt, head]

theorem lt_of_drop {b : UInt8} {rest : Bytes} (h : s.drop p = b :: rest) : p < s.length := by
  have := congrArg List.length h
  rw [List.length_drop, List.length_cons] at this
  omega

theorem byteAt_of_drop_nil (h : s.drop p = []) : byteAt s p = 0 := by
  have le : s.length ≤ p := List.drop_eq_nil_iff.1 h
  simp [byteAt, List.getElem?_eq_none le]

/-- A number by its digits is read back. -/
theorem number?_of_drop {w n : Nat} {rest : Bytes} (h : s.drop p = ascii (fixedDigits w n) ++ rest)
    (hn : n < 10 ^ w) : number? s p w = some n := by
  have len : (ascii (fixedDigits w n)).length = w := by simp
  have digits : (s.drop p).take w = ascii (fixedDigits w n) := by
    rw [h, List.take_left' len]
  have all : (ascii (fixedDigits w n)).all isDigit = true := by
    rw [ascii, List.all_map, List.all_eq_true]
    exact forall_mem_fixedDigits isDigit_digitChar
  simp only [number?, digits, len, all, and_self, if_true, foldl_fixedDigits, Nat.zero_mul,
    Nat.zero_add, Nat.mod_eq_of_lt hn]

/-- A span of bytes of a kind is no longer than up to one that is not of the kind. -/
theorem length_takeWhile_le_of_lt {f : UInt8 → Bool} {bs : Bytes} {i : Nat} (hi : i < bs.length)
    (stop : f (byteAt bs i) = false) : (bs.takeWhile f).length ≤ i := by
  induction bs generalizing i with
  | nil => cases hi
  | cons b bs ih =>
    cases i with
    | zero => simp [show f b = false from stop]
    | succ i =>
      have rest := ih (Nat.lt_of_succ_lt_succ hi) stop
      rw [List.takeWhile_cons]
      split
      · exact Nat.succ_le_succ rest
      · exact Nat.zero_le _

/-- The same of a span from a position on. -/
theorem length_takeWhile_le (s : Bytes) (f : UInt8 → Bool) {p k : Nat} (hp : p ≤ k)
    (hk : k < s.length) (stop : f (byteAt s k) = false) :
    p + ((s.drop p).takeWhile f).length ≤ k := by
  obtain ⟨i, rfl⟩ := Nat.exists_eq_add_of_le hp
  refine Nat.add_le_add_left (length_takeWhile_le_of_lt (by rw [List.length_drop]; omega) ?_) p
  rwa [byteAt, List.getElem?_drop]

/-! ### What stands at a position -/

/-- These ASCII characters stand at a position. -/
def Stands (s : Bytes) (p : Nat) (cs : List Char) : Prop := ascii cs <+: s.drop p

/-- A byte that is not zero is one of the text. -/
theorem drop_eq_cons (h : byteAt s p ≠ 0) : s.drop p = byteAt s p :: s.drop (p + 1) := by
  cases hd : s.drop p with
  | nil => exact absurd (byteAt_of_drop_nil hd) h
  | cons b rest => rw [byteAt_of_drop hd, drop_succ_of_drop hd]

theorem lt_of_byteAt (h : byteAt s p ≠ 0) : p < s.length := lt_of_drop (drop_eq_cons h)

theorem stands_nil : Stands s p [] := List.nil_prefix

/-- One part after another. -/
theorem stands_append {cs ds : List Char} :
    Stands s p (cs ++ ds) ↔ Stands s p cs ∧ Stands s (p + cs.length) ds := by
  unfold Stands
  rw [ascii_append, ← List.drop_drop]
  constructor
  · rintro ⟨rest, h⟩
    rw [List.append_assoc] at h
    refine ⟨⟨_, h⟩, rest, ?_⟩
    rw [← h, ← length_ascii cs, List.drop_left]
  · rintro ⟨⟨after, h⟩, rest, h'⟩
    rw [← h, ← length_ascii cs, List.drop_left] at h'
    exact ⟨rest, by rw [List.append_assoc, h', h]⟩

/-- One character, and what comes after it. -/
theorem stands_cons {c : Char} (hc : byte c ≠ 0) {cs : List Char} :
    Stands s p (c :: cs) ↔ byteAt s p = byte c ∧ Stands s (p + 1) cs := by
  unfold Stands
  rw [ascii_cons]
  constructor
  · rintro ⟨rest, h⟩
    have h : s.drop p = byte c :: (ascii cs ++ rest) := h.symm
    exact ⟨byteAt_of_drop h, rest, (drop_succ_of_drop h).symm⟩
  · rintro ⟨here, rest, h⟩
    exact ⟨rest, by rw [drop_eq_cons (here ▸ hc), here, ← h, List.cons_append]⟩

/-- What stands somewhere is within the text. -/
theorem Stands.le_length {cs : List Char} (h : Stands s p cs) (hp : p ≤ s.length) :
    p + cs.length ≤ s.length := by
  have le := List.IsPrefix.length_le h
  rw [length_ascii, List.length_drop] at le
  omega

/-- What stands at a position has its characters in the bytes from there on. -/
theorem Stands.exists_byteAt {k : Nat} {cs : List Char} (h : Stands s p cs)
    (hp : p ≤ k) (hk : k < p + cs.length) : ∃ c ∈ cs, byteAt s k = byte c := by
  obtain ⟨i, rfl⟩ := Nat.exists_eq_add_of_le hp
  have hi : i < cs.length := by omega
  refine ⟨cs[i], List.getElem_mem hi, ?_⟩
  obtain ⟨rest, h⟩ := h
  have here : s[p + i]? = some (byte cs[i]) := by
    rw [← List.getElem?_drop, ← h, List.getElem?_append_left (by rwa [length_ascii]), ascii,
      List.getElem?_map, List.getElem?_eq_getElem hi, Option.map_some]
  rw [byteAt, here, Option.getD_some]

/-! ### Numbers that were read -/

/-- A byte that is a digit is one of a number below ten. -/
theorem exists_digitChar {b : UInt8} (h : isDigit b = true) :
    ∃ d < 10, byte (Nat.digitChar d) = b := by
  have all : ∀ d < 10, (byte (Nat.digitChar d)).toNat = d + 48 := by decide
  simp only [isDigit, Bool.and_eq_true, decide_eq_true_eq, UInt8.le_iff_toNat_le] at h
  have low : (byte '0').toNat = 48 := rfl
  have high : (byte '9').toNat = 57 := rfl
  refine ⟨b.toNat - 48, by omega, UInt8.toNat_inj.1 ?_⟩
  rw [all _ (by omega)]
  omega

/-- What is before the last digits of a number does not take part in them. -/
theorem fixedDigits_add {w k : Nat} (hw : w ≤ k) (d n : Nat) :
    fixedDigits w (d * 10 ^ k + n) = fixedDigits w n := by
  induction w with
  | zero => rfl
  | succ w ih =>
    have power : 10 ^ k = 10 ^ (k - w - 1) * 10 * 10 ^ w := by
      rw [← Nat.pow_succ, ← Nat.pow_add]
      congr 1
      omega
    have digit : (d * 10 ^ k + n) / 10 ^ w % 10 = n / 10 ^ w % 10 := by
      rw [power, ← Nat.mul_assoc, ← Nat.mul_assoc, Nat.add_comm,
        Nat.add_mul_div_right _ _ (Nat.pow_pos (by decide)), Nat.add_mul_mod_self_right]
    simp only [fixedDigits, Nat.pow_eq, digit, ih (by omega)]

/-- Bytes that are all digits are the digits of a number. -/
theorem exists_fixedDigits {bs : Bytes} (h : bs.all isDigit = true) :
    ∃ n < 10 ^ bs.length, bs = ascii (fixedDigits bs.length n) := by
  induction bs with
  | nil => exact ⟨0, by simp, rfl⟩
  | cons b bs ih =>
    rw [List.all_cons, Bool.and_eq_true] at h
    obtain ⟨n, hn, same⟩ := ih h.2
    obtain ⟨d, hd, rfl⟩ := exists_digitChar h.1
    have first : (d * 10 ^ bs.length + n) / 10 ^ bs.length % 10 = d := by
      rw [Nat.add_comm, Nat.add_mul_div_right _ _ (Nat.pow_pos (by decide)), Nat.div_eq_of_lt hn,
        Nat.zero_add, Nat.mod_eq_of_lt hd]
    refine ⟨d * 10 ^ bs.length + n, ?_, ?_⟩
    · rw [List.length_cons, Nat.pow_succ]
      have := Nat.mul_le_mul_right (10 ^ bs.length) (Nat.le_of_lt_succ hd)
      omega
    · rw [List.length_cons, fixedDigits, Nat.pow_eq, first, fixedDigits_add (Nat.le_refl _),
        ascii_cons, ← same]

/-- **A number is read where its digits stand.** -/
theorem number?_eq_some_iff {w n : Nat} :
    number? s p w = some n ↔ n < 10 ^ w ∧ Stands s p (fixedDigits w n) := by
  constructor
  · intro h
    have read := h
    simp only [number?] at h
    split at h
    · next digits =>
      obtain ⟨len, all⟩ := digits
      obtain ⟨m, hm, same⟩ := exists_fixedDigits all
      rw [len] at hm same
      have stands := List.take_prefix w (s.drop p)
      rw [same] at stands
      obtain ⟨rest, hrest⟩ := stands
      rw [number?_of_drop hrest.symm hm] at read
      cases read
      exact ⟨hm, rest, hrest⟩
    · cases h
  · rintro ⟨hn, rest, h⟩
    exact number?_of_drop h.symm hn

/-- Where a number stands, a digit stands. -/
theorem Stands.isDigit {w n : Nat} (h : Stands s p (fixedDigits (w + 1) n)) :
    isDigit (byteAt s p) = true := by
  obtain ⟨rest, h⟩ := h
  rw [fixedDigits, ascii_cons, List.cons_append] at h
  rw [byteAt_of_drop h.symm]
  exact isDigit_digitChar _

end IsoReading

end EntitySchema
