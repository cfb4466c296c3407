import ScriptEditor.Text

/-! How fingerprints are computed is open. Programs that run take SipHash under the key zero. -/

namespace ScriptEditor

class Fingerprint where
  ofText : Text → UInt64

/-- Among the texts, those of one length in bytes are told apart by their fingerprints. -/
def Fingerprint.Separates [Fingerprint] (texts : List Text) : Prop :=
  ∀ s ∈ texts, ∀ t ∈ texts, s.byteLength = t.byteLength → ofText s = ofText t → s = t

instance [Fingerprint] (texts : List Text) : Decidable (Fingerprint.Separates texts) :=
  inferInstanceAs (Decidable (∀ s ∈ texts, ∀ t ∈ texts, _ → _ → _))

theorem Fingerprint.Separates.mono [Fingerprint] {texts more : List Text} (h : Separates more)
    (hsub : texts ⊆ more) : Separates texts :=
  fun s hs t ht => h s (hsub hs) t (hsub ht)

/-- The four words that SipHash works on. -/
structure SipHash where
  v₀ : UInt64
  v₁ : UInt64
  v₂ : UInt64
  v₃ : UInt64

namespace SipHash

/-- The words that the key zero gives. -/
def start : SipHash :=
  ⟨0x736f6d6570736575, 0x646f72616e646f6d, 0x6c7967656e657261, 0x7465646279746573⟩

def rotate (n : UInt64) (w : UInt64) : UInt64 := w <<< n ||| w >>> (64 - n)

def round (s : SipHash) : SipHash :=
  let a := s.v₀ + s.v₁
  let b := rotate 13 s.v₁ ^^^ a
  let c := s.v₂ + s.v₃
  let d := rotate 16 s.v₃ ^^^ c
  let e := rotate 32 a + d
  let f := c + b
  ⟨e, rotate 17 b ^^^ f, rotate 32 f, rotate 21 d ^^^ e⟩

def absorb (s : SipHash) (word : UInt64) : SipHash :=
  let r := round { s with v₃ := s.v₃ ^^^ word }
  { r with v₀ := r.v₀ ^^^ word }

/-- Eight bytes make a word, the first byte lowest. -/
def wordOf (bytes : List UInt8) : UInt64 := bytes.foldr (fun b w => w <<< 8 ||| b.toUInt64) 0

/-- Absorbs the bytes from the one with the index on. The last word is filled up with zeros, and its
highest byte is the number of all bytes. -/
def absorbBytes (s : SipHash) (index : Nat) : List UInt8 → SipHash
  | a :: b :: c :: d :: e :: f :: g :: h :: rest =>
    absorbBytes (s.absorb (wordOf [a, b, c, d, e, f, g, h])) (index + 8) rest
  | rest => s.absorb (wordOf rest ||| (index + rest.length).toUInt64 <<< 56)

def finish (s : SipHash) : UInt64 :=
  let r := round (round (round { s with v₂ := s.v₂ ^^^ 0xFF }))
  r.v₀ ^^^ r.v₁ ^^^ r.v₂ ^^^ r.v₃

/-- The fingerprint of the bytes of a text and one byte more, which no text has. -/
def ofText (t : Text) : UInt64 :=
  (start.absorbBytes 0 (t.flatMap String.utf8EncodeChar ++ [0xFF])).finish

end SipHash

instance : Fingerprint := ⟨SipHash.ofText⟩

end ScriptEditor
