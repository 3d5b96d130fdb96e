import DollarMath.Proofs.Characters
import DollarMath.Proofs.Encodings
import DollarMath.Run

/-!
# What is read can be written

A converted document has the characters of the document, and ASCII characters.  So the character
set that has read the document has bytes for it, and reads from them what has been written.  A run
whose encoding is a character set never fails to encode.
-/

namespace DollarMath

theorem mapError_eq_ok_iff {ε ε' α : Type} {f : ε → ε'} {x : Except ε α} {a : α} :
  x.mapError f = .ok a ↔ x = .ok a
  := by
  cases x with
  | error e => simp [Except.mapError]
  | ok b => simp [Except.mapError]

/-- The encoding that has read a document has bytes for the converted one. -/
theorem Charset.has_of_mem_convertDocument {charset : Charset} {bs : Bytes} {t : Text}
    (h : charset.decode bs = .ok t) :
  ∀ c ∈ (convertDocument t).text, charset.Has c
  := by
  intro c hc
  rcases mem_of_mem_convertDocument hc with hc | hc
  · apply has_of_decode h c hc
  · have hmarks : marks.all (fun c => c.toNat < 0x80) = true := by decide
    apply charset.has_of_lt (by simpa using List.all_eq_true.mp hmarks c hc)

/-- The codec of a character set that has read a document has bytes for the converted one. -/
theorem Charset.exists_codec_encode {charset : Charset} {bs : Bytes} {t : Text}
    (h : charset.codec.decode bs = .ok t) :
  ∃ out, charset.codec.encode (convertDocument t).text = .ok out
  := by
  have hhas := has_of_mem_convertDocument (mapError_eq_ok_iff.mp h)
  obtain ⟨out, hout, -⟩ := exists_encode hhas
  use out
  apply mapError_eq_ok_iff.mpr hout

/-- The encoding that is chosen is a character set. -/
def ChoosesCharset (lookup : String → Option Codec) (asked environment : Option String) : Prop :=
  ∃ charset : Charset, lookup (Settings.chosenName asked environment) = some charset.codec

namespace Request

/-- What a run does with a text: it leaves the file as it is, or it encodes the converted text and
writes it unless it only checks. -/
theorem decideText_cases (codec : Codec) (t : Text) :
  (∀ r : Request, r.decideText codec t = .finish .unchanged (events t))
    ∨ ∀ r : Request, r.decideText codec t
      = if r.check then .finish (.pending (convertDocument t).tally) (events t)
        else .ofEncoded (convertDocument t).tally (events t)
          (codec.encode (convertDocument t).text)
  := by
  by_cases hkept : (convertDocument t).text = t ∨ (convertDocument t).tally.total = 0
  · left
    intro r
    rw [decideText, if_pos (by simpa using hkept)]
  · right
    intro r
    rw [decideText, if_neg (by simpa using hkept)]

/-- A run whose encoding is a character set does not fail to encode. -/
theorem decideBytes_ne_encoding (r : Request) {lookup : String → Option Codec}
    {environment : Option String} (hcharset : ChoosesCharset lookup r.encoding environment)
    (file : Except Failure Bytes) (failure : Failure) (events : List Event) :
  r.decideBytes lookup environment file ≠ .finish (.failed .encoding failure) events
  := by
  obtain ⟨charset, hlookup⟩ := hcharset
  intro h
  rw [decideBytes, Settings.choose, hlookup] at h
  cases file with
  | error failure => cases h
  | ok bs =>
    dsimp only at h
    cases hdecode : charset.codec.decode bs with
    | error failure =>
      rw [hdecode] at h
      cases h
    | ok t =>
      rw [hdecode] at h
      dsimp only at h
      rcases decideText_cases charset.codec t with hkept | hconverted
      · rw [hkept] at h
        cases h
      · obtain ⟨out, hout⟩ := Charset.exists_codec_encode hdecode
        rw [hconverted, hout] at h
        split at h
        · cases h
        · cases h

end Request

/-- A converted document is written in the encoding that has read the document, and read again
from what has been written; so no run whose encoding is a character set finds that a converted
text has no bytes. -/
theorem encode_convertDocument :
  (∀ (charset : Charset) (bs : Bytes) (t : Text), charset.decode bs = .ok t →
      ∃ out, charset.encode (convertDocument t).text = .ok out
        ∧ charset.decode out = .ok (convertDocument t).text)
    ∧ ∀ (r : Request) (lookup : String → Option Codec) (environment : Option String),
      ChoosesCharset lookup r.encoding environment →
        ∀ (file : Except Failure Bytes) (failure : Failure) (events : List Event),
          r.decideBytes lookup environment file ≠ .finish (.failed .encoding failure) events
  := by
  constructor
  · intro charset bs t h
    apply Charset.exists_encode (Charset.has_of_mem_convertDocument h)
  · intro r lookup environment hcharset
    apply r.decideBytes_ne_encoding hcharset

/-- A formula with a pair of surrogates, the higher bytes first, in a file that is read as
UTF-16. -/
theorem encode_convertDocument_pair :
  let bs : Bytes := [0xfe, 0xff, 0x00, 0x5c, 0x00, 0x28, 0xd8, 0x35, 0xdc, 0x65, 0x00, 0x5c, 0x00,
    0x29]
  let t : Text := ['\\', '(', '𝑥', '\\', ')']
  let r : Request := ⟨"note.md", none, false, some "utf-16", false⟩
  let lookup : String → Option Codec := fun name =>
    if name = "utf-16" then some Charset.utf16.codec else none
  (Charset.utf16.decode bs = .ok t
      ∧ ∃ out, Charset.utf16.encode (convertDocument t).text = .ok out
        ∧ Charset.utf16.decode out = .ok (convertDocument t).text)
    ∧ ChoosesCharset lookup r.encoding none
    ∧ ∀ (failure : Failure) (events : List Event),
      r.decideBytes lookup none (.ok bs) ≠ .finish (.failed .encoding failure) events
  := by
  intro bs t r lookup
  have hdecode : Charset.utf16.decode bs = .ok t := by rfl
  have hcharset : ChoosesCharset lookup r.encoding none := ⟨.utf16, rfl⟩
  refine ⟨⟨hdecode, encode_convertDocument.1 .utf16 bs t hdecode⟩, hcharset, ?_⟩
  apply encode_convertDocument.2 r lookup none hcharset

end DollarMath
