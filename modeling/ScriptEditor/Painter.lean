import ScriptEditor.Duration
import ScriptEditor.Fingerprint
import ScriptEditor.Markup

/-! A painter writes the markup of one text after another, and remembers that of the last. -/

namespace ScriptEditor

/-- Requests answered from memory (`hits`) and not (`misses`), the passes over a text that were
made, and the tokens that these found. -/
structure Counts where
  passes : Nat := 0
  tokens : Nat := 0
  hits : Nat := 0
  misses : Nat := 0
deriving DecidableEq, Repr

namespace Counts

def hit (n : Counts) : Counts := { n with hits := n.hits + 1 }

def miss (n : Counts) : Counts := { n with misses := n.misses + 1 }

def pass (n : Counts) (tokens : Nat) : Counts :=
  { n with passes := n.passes + 1, tokens := n.tokens + tokens }

/-- The first number that is too large for a counter. -/
def limit : Nat := 0x10000000000000000

/-- Whether each counter is below the limit. -/
def fits (n : Counts) : Bool :=
  n.passes < limit && n.tokens < limit && n.hits < limit && n.misses < limit

def fit? (n : Counts) : Option Counts := if n.fits then some n else none

/-- The part of the requests that was answered from memory, and zero before the first. -/
def hitRatio (n : Counts) : Float :=
  if n.hits + n.misses = 0 then 0.0
  else Float.ofNat n.hits / Float.ofNat (n.hits + n.misses)

/-- The same ratio, if the number of all requests is below the limit. -/
def hitRatio? (n : Counts) : Option Float :=
  if n.hits + n.misses < limit then some n.hitRatio else none

theorem fits_iff {n : Counts} :
    n.fits ↔ n.passes < limit ∧ n.tokens < limit ∧ n.hits < limit ∧ n.misses < limit := by
  simp [fits, and_assoc]

theorem fit?_eq_some_iff {n m : Counts} : n.fit? = some m ↔ n.fits ∧ n = m := by
  unfold fit?
  split <;> simp_all

end Counts

/-- What is kept of a text that was painted. -/
structure Memory where
  fingerprint : UInt64
  bytes : Nat
  markup : Text
deriving DecidableEq, Repr

/-- A painter knows the text it painted last by fingerprint and length. Its counts are not checked: it
takes 2 ^ 64 requests, or tokens, to bring one of them to the limit. -/
structure Painter where
  sheet : StyleSheet := .standard
  enabled : Bool := true
  last : Option Memory := none
  counts : Counts := {}

variable [Fingerprint]

/-- Whether the text has the fingerprint and the length of the one that was painted. -/
def Memory.knows (m : Memory) (source : Text) : Bool :=
  m.fingerprint == Fingerprint.ofText source && m.bytes == source.byteLength

namespace Painter

/-- What an answered request gives: the markup, and the painter afterwards. A painter that is not
enabled writes the plain text, keeps what it remembers and counts nothing. -/
def paint (p : Painter) (source : Text) : Text × Painter :=
  if p.enabled then
    match p.last.filter (·.knows source) with
    | some m => (m.markup, { p with counts := p.counts.hit })
    | none =>
      let tokens := lex source
      let markup := Markup.ofTokens p.sheet (Names.ofTokens source tokens) tokens
      (markup, { p with
        last := some ⟨Fingerprint.ofText source, source.byteLength, markup⟩
        counts := p.counts.miss.pass tokens.length })
  else (Markup.plain source, p)

/-- A request, which is not answered if it takes a pass by whose number no span can be divided: with
each pass the average time of all of them is taken. -/
def paint? (p : Painter) (source : Text) : Option (Text × Painter) :=
  let (markup, after) := p.paint source
  if p.counts.passes < after.counts.passes && !Duration.canDivide after.counts.passes then none
  else some (markup, after)

def enable (p : Painter) (enabled : Bool) : Painter := { p with enabled }

/-- Another sheet gives other markup, so what is remembered is dropped. -/
def setSheet (p : Painter) (sheet : StyleSheet) : Painter := { p with sheet, last := none }

def resetCounts (p : Painter) : Painter := { p with counts := {} }

def forget (p : Painter) : Painter := { p with last := none }

inductive Command
  | paint (source : Text)
  | enable (enabled : Bool)
  | setSheet (sheet : StyleSheet)
  | resetCounts
  | forget

/-- What an obeyed command gives: the markup it asks for, if any, and the painter afterwards. -/
def obey (p : Painter) : Command → Option Text × Painter
  | .paint source => let (markup, p) := p.paint source; (some markup, p)
  | .enable enabled => (none, p.enable enabled)
  | .setSheet sheet => (none, p.setSheet sheet)
  | .resetCounts => (none, p.resetCounts)
  | .forget => (none, p.forget)

def obey? (p : Painter) : Command → Option (Option Text × Painter)
  | .paint source => (p.paint? source).map fun (markup, p) => (some markup, p)
  | command => some (p.obey command)

/-- The answers to commands that follow each other, if there is one to each, and the painter
afterwards. -/
def run? (p : Painter) : List Command → Option (List (Option Text) × Painter)
  | [] => some ([], p)
  | command :: rest => do
    let (answer, p) ← p.obey? command
    let (answers, p) ← p.run? rest
    return (answer :: answers, p)

end Painter

end ScriptEditor
