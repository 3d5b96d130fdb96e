import DollarMath.Encoding.Charset
import Mathlib.Data.List.Basic

/-!
# Encodings there and back

Every encoding reads what it has written.  UTF-8 and UTF-16 have bytes for every text, a code page
for the texts of its own characters, which are those that it reads.
-/

namespace DollarMath

theorem toNat_toUInt8 {n : Nat} (h : n < 0x100) :
  n.toUInt8.toNat = n
  := UInt8.toNat_ofNat_of_lt' h

theorem toNat_ofNat {n : Nat} (h : n.isValidChar) :
  (Char.ofNat n).toNat = n
  := by
  rw [Char.ofNat, dif_pos h]
  rfl

/-- A code point is no surrogate. -/
theorem toNat_cases (c : Char) :
  c.toNat < 0xd800 ∨ (0xdfff < c.toNat ∧ c.toNat < 0x110000)
  := c.valid

/-! ### UTF-8 -/

namespace Utf8

/-- Behind the sequence that has begun, if there is one, some bytes are read as a character. -/
def IsRead (pos : Nat) (pending : Option Pending) (front : Bytes) (c : Char) : Prop :=
  ∀ bs, decodeFrom pos pending (front ++ bs)
    = (do return c :: (← decodeFrom (pos + front.length) none bs))

/-- A character of one byte is read. -/
theorem isRead_short {c : Char} (pos : Nat) (h : c.toNat < 0x80) :
  IsRead pos none [c.toNat.toUInt8] c
  := by
  intro bs
  rw [List.singleton_append, decodeFrom, toNat_toUInt8 (by omega), if_pos h, Char.ofNat_toNat]
  rfl

/-- The first byte of a sequence. -/
theorem IsRead.first {pos : Nat} {b : UInt8} {q : Pending} {front : Bytes} {c : Char}
    (hq : Pending.ofFirst? pos b = some q) (hb : 0x80 ≤ b.toNat)
    (h : IsRead (pos + 1) (some q) front c) :
  IsRead pos none (b :: front) c
  := by
  intro bs
  have hlength : pos + (b :: front).length = pos + 1 + front.length := by
    rw [List.length_cons]
    omega
  rw [hlength, List.cons_append, decodeFrom, if_neg (by omega), hq]
  apply h bs

/-- A byte in the middle of a sequence. -/
theorem IsRead.middle {pos start value missing low high k : Nat} {first : UInt8} {front : Bytes}
    {c : Char} (hk : k < 0x40) (hlow : low ≤ 0x80 + k) (hhigh : 0x80 + k ≤ high)
    (h : IsRead (pos + 1) (some ⟨start, first, value * 64 + k, missing + 1, 0x80, 0xbf⟩) front c) :
  IsRead pos (some ⟨start, first, value, missing + 2, low, high⟩) ((0x80 + k).toUInt8 :: front) c
  := by
  intro bs
  have hlength : pos + ((0x80 + k).toUInt8 :: front).length = pos + 1 + front.length := by
    rw [List.length_cons]
    omega
  rw [hlength, List.cons_append, decodeFrom, toNat_toUInt8 (by omega), if_pos ⟨hlow, hhigh⟩,
    if_neg (by simp), Nat.add_sub_cancel_left]
  apply h bs

/-- The last byte of a sequence. -/
theorem IsRead.last {start value low high k : Nat} {first : UInt8} {c : Char} (pos : Nat)
    (hk : k < 0x40) (hlow : low ≤ 0x80 + k) (hhigh : 0x80 + k ≤ high)
    (hc : value * 64 + k = c.toNat) :
  IsRead pos (some ⟨start, first, value, 1, low, high⟩) [(0x80 + k).toUInt8] c
  := by
  intro bs
  rw [List.singleton_append, decodeFrom, toNat_toUInt8 (by omega), if_pos ⟨hlow, hhigh⟩,
    if_pos rfl, Nat.add_sub_cancel_left, hc, Char.ofNat_toNat]
  rfl

/-- The sequence of two bytes that the first one begins. -/
theorem ofFirst?_two {n : Nat} (pos : Nat) (hn : 0x80 ≤ n ∧ n < 0x800) :
  Pending.ofFirst? pos (0xc0 + n / 0x40).toUInt8
    = some ⟨pos, (0xc0 + n / 0x40).toUInt8, n / 0x40, 1, 0x80, 0xbf⟩
  := by
  rw [Pending.ofFirst?, toNat_toUInt8 (by omega), if_pos (by omega), Nat.add_sub_cancel_left]

/-- The sequence of three bytes that the first one begins.  The second one is in its bounds,
since the shortest form is written and no surrogate. -/
theorem ofFirst?_three {n : Nat} (pos : Nat) (hn : 0x800 ≤ n ∧ n < 0x10000)
    (hvalid : n < 0xd800 ∨ 0xdfff < n) :
  ∃ low high, Pending.ofFirst? pos (0xe0 + n / 0x1000).toUInt8
      = some ⟨pos, (0xe0 + n / 0x1000).toUInt8, n / 0x1000, 2, low, high⟩
    ∧ low ≤ 0x80 + n / 0x40 % 0x40 ∧ 0x80 + n / 0x40 % 0x40 ≤ high
  := by
  rw [Pending.ofFirst?, toNat_toUInt8 (by omega), if_neg (by omega)]
  split
  · have hzero : n / 0x1000 = 0 := by omega
    refine ⟨0xa0, 0xbf, ?_, by omega, by omega⟩
    rw [hzero]
  · split
    · have hthirteen : n / 0x1000 = 0xd := by omega
      refine ⟨0x80, 0x9f, ?_, by omega, by omega⟩
      rw [hthirteen]
    · refine ⟨0x80, 0xbf, ?_, by omega, by omega⟩
      rw [if_pos (by omega), Nat.add_sub_cancel_left]

/-- The sequence of four bytes that the first one begins.  The second one is in its bounds, since
the shortest form is written and nothing beyond the code space. -/
theorem ofFirst?_four {n : Nat} (pos : Nat) (hn : 0x10000 ≤ n ∧ n < 0x110000) :
  ∃ low high, Pending.ofFirst? pos (0xf0 + n / 0x40000).toUInt8
      = some ⟨pos, (0xf0 + n / 0x40000).toUInt8, n / 0x40000, 3, low, high⟩
    ∧ low ≤ 0x80 + n / 0x1000 % 0x40 ∧ 0x80 + n / 0x1000 % 0x40 ≤ high
  := by
  rw [Pending.ofFirst?, toNat_toUInt8 (by omega), if_neg (by omega), if_neg (by omega),
    if_neg (by omega), if_neg (by omega)]
  split
  · have hzero : n / 0x40000 = 0 := by omega
    refine ⟨0x90, 0xbf, ?_, by omega, by omega⟩
    rw [hzero]
  · split
    · refine ⟨0x80, 0xbf, ?_, by omega, by omega⟩
      rw [Nat.add_sub_cancel_left]
    · have hfour : n / 0x40000 = 4 := by omega
      refine ⟨0x80, 0x8f, ?_, by omega, by omega⟩
      rw [hfour, if_pos rfl]

/-- The bytes of a character are read as the character. -/
theorem isRead_encodeChar (pos : Nat) (c : Char) :
  IsRead pos none (encodeChar c) c
  := by
  have hvalid := toNat_cases c
  rw [encodeChar]
  split
  · next hshort => exact isRead_short pos hshort
  · split
    · apply IsRead.first (ofFirst?_two pos (by omega))
      · rw [toNat_toUInt8 (by omega)]
        omega
      · apply IsRead.last <;> omega
    · split
      · obtain ⟨low, high, hq, hlow, hhigh⟩ :=
          ofFirst?_three (n := c.toNat) pos (by omega) (by omega)
        apply IsRead.first hq
        · rw [toNat_toUInt8 (by omega)]
          omega
        · apply IsRead.middle (by omega) hlow hhigh
          apply IsRead.last <;> omega
      · obtain ⟨low, high, hq, hlow, hhigh⟩ := ofFirst?_four (n := c.toNat) pos (by omega)
        apply IsRead.first hq
        · rw [toNat_toUInt8 (by omega)]
          omega
        · apply IsRead.middle (by omega) hlow hhigh
          apply IsRead.middle (by omega) (by omega) (by omega)
          apply IsRead.last <;> omega

/-- UTF-8 reads what it has written. -/
theorem decode_encode (t : Text) :
  decode (encode t) = .ok t
  := by
  suffices ∀ pos, decodeFrom pos none (encode t) = .ok t from this 0
  induction t with
  | nil => exact fun _ => rfl
  | cons c cs ih =>
    intro pos
    rw [encode, List.flatMap_cons, ← encode, isRead_encodeChar, ih]
    rfl

/-- What is encoded is decoded behind a signature. -/
theorem decodeSigned_encode (t : Text) :
  decodeSigned (signature ++ encode t) = .ok t
  := by
  rw [decodeSigned, if_pos (List.isPrefixOf_iff_prefix.mpr (List.prefix_append _ _))]
  apply decode_encode

end Utf8

/-! ### UTF-16 -/

namespace Utf16

/-- The two bytes of a unit make it. -/
theorem unit_encodeUnit {u : Nat} (h : u < 0x10000) :
  Order.little.unit (u % 0x100).toUInt8 (u / 0x100).toUInt8 = u
  := by
  rw [Order.unit, toNat_toUInt8 (by omega), toNat_toUInt8 (by omega)]
  omega

/-- A unit that is no surrogate is read as a character. -/
theorem decodeFrom_unit {u : Nat} (h : u < 0xd800 ∨ 0xdfff < u) (hu : u < 0x10000)
    (pos : Nat) (bs : Bytes) :
  decodeFrom .little pos none (encodeUnit u ++ bs)
    = (do return Char.ofNat u :: (← decodeFrom .little (pos + 2) none bs))
  := by
  have hhigh : isHigh u = false := by
    simp only [isHigh, Bool.and_eq_false_iff, decide_eq_false_iff_not]
    omega
  have hlow : isLow u = false := by
    simp only [isLow, Bool.and_eq_false_iff, decide_eq_false_iff_not]
    omega
  simp only [encodeUnit, List.cons_append, List.nil_append, decodeFrom, unit_encodeUnit hu, hhigh,
    hlow]
  rfl

/-- A pair of surrogates is read as one character. -/
theorem decodeFrom_pair {u v : Nat} (hu : 0xd800 ≤ u ∧ u ≤ 0xdbff) (hv : 0xdc00 ≤ v ∧ v ≤ 0xdfff)
    (pos : Nat) (bs : Bytes) :
  decodeFrom .little pos none (encodeUnit u ++ encodeUnit v ++ bs)
    = (do
      return Char.ofNat (0x10000 + (u - 0xd800) * 0x400 + (v - 0xdc00))
        :: (← decodeFrom .little (pos + 2 + 2) none bs))
  := by
  have hhigh : isHigh u = true := by simpa [isHigh] using hu
  have hlow : isLow v = true := by simpa [isLow] using hv
  simp only [encodeUnit, List.cons_append, List.nil_append, decodeFrom,
    unit_encodeUnit (u := u) (by omega), unit_encodeUnit (u := v) (by omega), hhigh, hlow]
  rfl

/-- The units of a character are read as the character. -/
theorem exists_decodeFrom_encodeChar (pos : Nat) (c : Char) (bs : Bytes) :
  ∃ pos', decodeFrom .little pos none (encodeChar c ++ bs)
    = (do return c :: (← decodeFrom .little pos' none bs))
  := by
  have hvalid := toNat_cases c
  rw [encodeChar]
  split
  · use pos + 2
    rw [decodeFrom_unit (by omega) (by omega), Char.ofNat_toNat]
  · use pos + 2 + 2
    have hvalue : 0x10000 + (0xd800 + (c.toNat - 0x10000) / 0x400 - 0xd800) * 0x400
        + (0xdc00 + (c.toNat - 0x10000) % 0x400 - 0xdc00) = c.toNat := by omega
    rw [decodeFrom_pair (by omega) (by omega), hvalue, Char.ofNat_toNat]

/-- UTF-16 reads what it has written. -/
theorem decodeFrom_encodeLittle (pos : Nat) (t : Text) :
  decodeFrom .little pos none (encodeLittle t) = .ok t
  := by
  induction t generalizing pos with
  | nil => rfl
  | cons c cs ih =>
    obtain ⟨pos', hpos⟩ := exists_decodeFrom_encodeChar pos c (encodeLittle cs)
    rw [encodeLittle, List.flatMap_cons, ← encodeLittle, hpos, ih]
    rfl

end Utf16

/-! ### Code pages -/

namespace CodePage

/-- The characters of the bytes 80 to 9f in Windows-1252 are no surrogates. -/
theorem toNat_of_mem_windows1252Middle {n : Nat} (h : some n ∈ windows1252Middle) :
  (Char.ofNat n).toNat = n
  := by
  have hvalid : ∀ k ∈ windows1252Middle, ∀ n ∈ k, n.isValidChar := by decide
  apply toNat_ofNat (hvalid _ h n rfl)

/-- The byte that is written for a character has that character. -/
theorem char?_of_byte? {page : CodePage} {c : Char} {b : UInt8} (h : page.byte? c = some b) :
  page.char? b = some c
  := by
  cases page with
  | ascii =>
    obtain ⟨hc, heq⟩ := Option.ite_none_right_eq_some.mp h
    obtain rfl := Option.some.inj heq
    rw [char?, toNat_toUInt8 (by omega), if_pos hc, Char.ofNat_toNat]
  | latin1 =>
    obtain ⟨hc, heq⟩ := Option.ite_none_right_eq_some.mp h
    obtain rfl := Option.some.inj heq
    rw [char?, toNat_toUInt8 (by omega), Char.ofNat_toNat]
  | windows1252 =>
    rw [byte?] at h
    rw [char?]
    split at h
    · next hc =>
      obtain rfl := Option.some.inj h
      rw [toNat_toUInt8 (by omega), if_pos (by omega), Char.ofNat_toNat]
    · obtain ⟨i, hi, rfl⟩ := Option.map_eq_some_iff.mp h
      obtain ⟨hlt, hget, -⟩ := List.idxOf?_eq_some_iff.mp hi
      have hlength : windows1252Middle.length = 0x20 := rfl
      rw [toNat_toUInt8 (by omega), if_neg (by omega), Nat.add_sub_cancel_left,
        List.getElem?_eq_getElem hlt, hget]
      rw [Option.getD_some, Option.map_some, Char.ofNat_toNat]

/-- The character of a byte has a byte. -/
theorem isSome_byte?_of_char? {page : CodePage} {b : UInt8} {c : Char} (h : page.char? b = some c) :
  (page.byte? c).isSome = true
  := by
  have hb : b.toNat < 0x100 := b.toNat_lt
  have hchar : (Char.ofNat b.toNat).toNat = b.toNat := by
    apply toNat_ofNat
    left
    omega
  cases page with
  | ascii =>
    obtain ⟨hlt, heq⟩ := Option.ite_none_right_eq_some.mp h
    obtain rfl := Option.some.inj heq
    rw [byte?, hchar, if_pos hlt]
    rfl
  | latin1 =>
    obtain rfl := Option.some.inj h
    rw [byte?, hchar, if_pos hb]
    rfl
  | windows1252 =>
    rw [char?] at h
    rw [byte?]
    split at h
    · next hn =>
      obtain rfl := Option.some.inj h
      rw [hchar, if_pos (by omega)]
      rfl
    · obtain ⟨n, hn, rfl⟩ := Option.map_eq_some_iff.mp h
      split
      · rfl
      · have hmem : some n ∈ windows1252Middle := by
          rcases Option.getD_eq_iff.mp hn with hget | ⟨-, hnone⟩
          · apply List.mem_of_getElem? hget
          · cases hnone
        rw [Option.isSome_map, List.isSome_idxOf?, toNat_of_mem_windows1252Middle hmem]
        exact hmem

/-- Every code page has bytes for the ASCII characters. -/
theorem isSome_byte?_of_lt {c : Char} (page : CodePage) (h : c.toNat < 0x80) :
  (page.byte? c).isSome = true
  := by
  cases page with
  | ascii =>
    rw [byte?, if_pos h]
    rfl
  | latin1 =>
    rw [byte?, if_pos (by omega)]
    rfl
  | windows1252 =>
    rw [byte?, if_pos (.inl h)]
    rfl

/-- Each decoded character stands on the page. -/
theorem char?_of_mem_decodeFrom {page : CodePage} {pos : Nat} {bs : Bytes} {t : Text} {c : Char}
    (h : page.decodeFrom pos bs = .ok t) (hc : c ∈ t) :
  ∃ b, page.char? b = some c
  := by
  induction bs generalizing pos t with
  | nil =>
    obtain rfl := Except.ok.inj h
    cases hc
  | cons b bs ih =>
    rw [decodeFrom] at h
    cases hchar : page.char? b with
    | none => simp [hchar] at h
    | some d =>
      rw [hchar] at h
      cases hrest : page.decodeFrom (pos + 1) bs with
      | error fault =>
        rw [hrest] at h
        cases h
      | ok u =>
        rw [hrest] at h
        obtain rfl := Except.ok.inj h
        rcases List.mem_cons.mp hc with rfl | hc
        · use b
        · apply ih hrest hc

/-- A text of characters with bytes is written, and read again. -/
theorem exists_encodeFrom {page : CodePage} {t : Text} (h : ∀ c ∈ t, (page.byte? c).isSome = true)
    (pos pos' : Nat) :
  ∃ bs, page.encodeFrom pos t = .ok bs ∧ page.decodeFrom pos' bs = .ok t
  := by
  induction t generalizing pos pos' with
  | nil => exact ⟨[], rfl, rfl⟩
  | cons c cs ih =>
    obtain ⟨hc, hcs⟩ := List.forall_mem_cons.mp h
    obtain ⟨b, hb⟩ := Option.isSome_iff_exists.mp hc
    obtain ⟨bs, hencode, hdecode⟩ := ih hcs (pos + 1) (pos' + 1)
    use b :: bs
    constructor
    · rw [encodeFrom, hb, hencode]
      rfl
    · rw [decodeFrom, char?_of_byte? hb, hdecode]
      rfl

end CodePage

/-! ### Character sets -/

namespace Charset

/-- A character that an encoding has bytes for. -/
def Has (charset : Charset) (c : Char) : Prop :=
  match charset with
  | page p => (p.byte? c).isSome = true
  | _ => True

/-- Every encoding has bytes for the ASCII characters. -/
theorem has_of_lt {c : Char} (charset : Charset) (h : c.toNat < 0x80) :
  charset.Has c
  := by
  cases charset with
  | page p => exact p.isSome_byte?_of_lt h
  | utf8 | utf8Signed | utf16 | utf16Little => trivial

/-- An encoding has bytes for the characters that it reads. -/
theorem has_of_decode {charset : Charset} {bs : Bytes} {t : Text} (h : charset.decode bs = .ok t) :
  ∀ c ∈ t, charset.Has c
  := by
  intro c hc
  cases charset with
  | page p =>
    obtain ⟨b, hb⟩ := CodePage.char?_of_mem_decodeFrom h hc
    apply CodePage.isSome_byte?_of_char? hb
  | utf8 | utf8Signed | utf16 | utf16Little => trivial

/-- A text of characters with bytes is written, and read again. -/
theorem exists_encode {charset : Charset} {t : Text} (h : ∀ c ∈ t, charset.Has c) :
  ∃ bs, charset.encode t = .ok bs ∧ charset.decode bs = .ok t
  := by
  cases charset with
  | utf8 => exact ⟨_, rfl, Utf8.decode_encode t⟩
  | utf8Signed => exact ⟨_, rfl, Utf8.decodeSigned_encode t⟩
  | utf16 => exact ⟨_, rfl, Utf16.decodeFrom_encodeLittle 2 t⟩
  | utf16Little => exact ⟨_, rfl, Utf16.decodeFrom_encodeLittle 0 t⟩
  | page p => exact CodePage.exists_encodeFrom h 0 0

end Charset

end DollarMath
