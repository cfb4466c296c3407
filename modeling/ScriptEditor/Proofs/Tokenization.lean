import Mathlib.Data.List.TakeWhile
import ScriptEditor.Proofs.Literal
import ScriptEditor.Proofs.Scanning

/-! What it means to cut a source into tokens, said without the lexer. -/

namespace ScriptEditor

def IsLetter (c : Char) : Prop := ('A' ≤ c ∧ c ≤ 'Z') ∨ ('a' ≤ c ∧ c ≤ 'z')

def IsDigit (c : Char) : Prop := '0' ≤ c ∧ c ≤ '9'

instance : DecidablePred IsLetter := fun _ => inferInstanceAs (Decidable (_ ∨ _))

instance : DecidablePred IsDigit := fun _ => inferInstanceAs (Decidable (_ ∧ _))

/-- The text begins with `w`, and `w` cannot be longer if it is to hold fitting characters only. -/
def IsRun (P : Char → Prop) (t w : Text) : Prop :=
  ∃ r, t = w ++ r ∧ (∀ c ∈ w, P c) ∧ ∀ c ∈ r.head?, ¬ P c

/-- The first rule that fits what is left of a source prescribes the next token. -/
def Prescribes (kind : Kind) (w : Text) : Text → Prop
  | [] => False
  | c :: t =>
    if ['/', '/'] <+: c :: t then kind = .comment ∧ IsRun (· ≠ '\n') (c :: t) w
    else if c = '"' then kind = .string ∧ IsLiteralAt (c :: t) w
    else if IsLetter c ∨ c = '_' then
      (kind = if w ∈ Word.keywords then .keyword
        else if w ∈ Word.literals then .value
        else .identifier) ∧
      IsRun (fun d => IsLetter d ∨ IsDigit d ∨ d = '_') (c :: t) w
    else if IsDigit c then kind = .value ∧ IsRun IsDigit (c :: t) w
    else if Text.isBlank c then kind = .blank ∧ w = [c]
    else kind = .operator ∧ w = [c]

/-- The tokens lie end to end from the one offset to the other, and none is empty. -/
def LieEndToEnd (start stop : Nat) : List Token → Prop
  | [] => start = stop
  | t :: rest => t.start = start ∧ t.start < t.stop ∧ LieEndToEnd t.stop stop rest

structure IsTokenization (source : Text) (tokens : List Token) : Prop where
  covers : LieEndToEnd 0 source.byteLength tokens
  slices : ∀ t ∈ tokens, source.slice? t.start t.stop = some t.text
  rules : ∀ t ∈ tokens, Prescribes t.kind t.text (source.dropBytes t.start)

theorem isDigit_iff {c : Char} : c.isDigit ↔ IsDigit c := by
  simp [Char.isDigit, IsDigit, Char.le_def]

theorem isAlpha_iff {c : Char} : c.isAlpha ↔ IsLetter c := by
  have halpha : c.isAlpha =
      (decide ('A' ≤ c ∧ c ≤ 'Z') || decide ('a' ≤ c) && decide (c ≤ 'z')) := rfl
  rw [halpha, IsLetter]
  simp only [Bool.or_eq_true, Bool.and_eq_true, decide_eq_true_eq]

theorem isWordStart_iff {c : Char} : isWordStart c ↔ IsLetter c ∨ c = '_' := by
  rw [isWordStart, Bool.or_eq_true, isAlpha_iff, beq_iff_eq]

theorem isWordChar_iff {c : Char} : isWordChar c ↔ IsLetter c ∨ IsDigit c ∨ c = '_' := by
  rw [isWordChar, Char.isAlphanum, Bool.or_eq_true, Bool.or_eq_true, isAlpha_iff, isDigit_iff,
    beq_iff_eq, or_assoc]

theorem isRun_iff {P : Char → Prop} {p : Char → Bool} (hp : ∀ c, p c ↔ P c) {t w : Text} :
    IsRun P t w ↔ w = t.takeWhile p := by
  constructor
  · intro h
    obtain ⟨r, rfl, hw, hr⟩ := h
    have hstop : r.takeWhile p = [] := by
      cases r with
      | nil => rfl
      | cons c r =>
        have hc : ¬ p c = true := fun h => hr c rfl ((hp c).1 h)
        exact List.takeWhile_cons_of_neg hc
    rw [List.takeWhile_append_of_pos fun c hc => (hp c).2 (hw c hc), hstop, List.append_nil]
  · intro h
    rw [h]
    refine ⟨t.dropWhile p, List.takeWhile_append_dropWhile.symm, ?_, ?_⟩
    · intro c hc
      exact (hp c).1 (List.mem_takeWhile_imp hc)
    · intro c hc hP
      have hnot := List.head?_dropWhile_not p t
      rw [Option.mem_def.1 hc] at hnot
      have htrue := (hp c).2 hP
      simp [htrue] at hnot

theorem ofWord_eq (w : Text) :
    Kind.ofWord w = if w ∈ Word.keywords then .keyword
      else if w ∈ Word.literals then .value else .identifier := by
  simp only [Kind.ofWord, Word.kindOf, Word.isKeyword, Word.isLiteral, List.contains_iff_mem]
  by_cases hkeyword : w ∈ Word.keywords
  · simp [hkeyword]
  · by_cases hliteral : w ∈ Word.literals
    · simp [hkeyword, hliteral]
    · simp [hkeyword, hliteral]

/-- The rules prescribe the lexeme at the front, and no other. -/
theorem prescribes_iff (kind : Kind) (w : Text) (c : Char) (t : Text) :
    Prescribes kind w (c :: t) ↔ kind = (Lexeme.front c t).kind ∧ w = (Lexeme.front c t).text := by
  have hslashes : ['/', '/'] <+: c :: t ↔ (c == '/' && t.head? == some '/') = true := by
    rw [← List.isPrefixOf_iff_prefix, Scan.isPrefixOf_slashes]
  have hline (d : Char) : d != '\n' ↔ d ≠ '\n' := bne_iff_ne
  have hdigit (d : Char) : d.isDigit ↔ IsDigit d := isDigit_iff
  have hword (d : Char) : isWordChar d ↔ (IsLetter d ∨ IsDigit d ∨ d = '_') := isWordChar_iff
  rw [Prescribes, isRun_iff hline, isRun_iff hdigit, isRun_iff hword, ← ofWord_eq]
  simp only [Lexeme.front, hslashes, ← isWordStart_iff, ← hdigit]
  split
  case isTrue h =>
    have hc : c = '/' := by
      rw [Bool.and_eq_true] at h
      exact beq_iff_eq.1 h.1
    rw [hc]
    rfl
  by_cases hquote : c = '"'
  · rw [if_pos hquote, if_pos (beq_iff_eq.2 hquote), hquote, isLiteralAt_iff]
  rw [if_neg hquote, if_neg (mt beq_iff_eq.1 hquote)]
  split
  case isTrue h =>
    have hc := isWordChar_of_isWordStart h
    rw [List.takeWhile_cons_of_pos hc]
    constructor
    · intro h
      obtain ⟨rfl, rfl⟩ := h
      exact ⟨rfl, rfl⟩
    · intro h
      obtain ⟨rfl, rfl⟩ := h
      exact ⟨rfl, rfl⟩
  split
  case isTrue h => rw [List.takeWhile_cons_of_pos h]
  split
  · rfl
  · rfl

theorem flatMap_text_lexAt (offset : Nat) (t : Text) : (lexAt offset t).flatMap Token.text = t := by
  induction t using Lexeme.induction generalizing offset with
  | nil => rw [lexAt_nil, List.flatMap_nil]
  | cons c t ih =>
    rw [lexAt_cons, List.flatMap_cons, ih]
    exact Lexeme.text_append_rest c t

theorem lieEndToEnd_lexAt (offset : Nat) (t : Text) :
    LieEndToEnd offset (offset + t.byteLength) (lexAt offset t) := by
  induction t using Lexeme.induction generalizing offset with
  | nil => rw [lexAt_nil, LieEndToEnd, Text.byteLength_nil, Nat.add_zero]
  | cons c t ih =>
    let w := (Lexeme.front c t).text
    have hpos : 0 < w.byteLength :=
      Nat.pos_of_ne_zero fun h => Lexeme.text_ne_nil c t (Text.byteLength_eq_zero.1 h)
    have hend : offset + Text.byteLength (c :: t) =
        offset + w.byteLength + Text.byteLength (Lexeme.front c t).rest := by
      rw [← Lexeme.text_append_rest c t, Text.byteLength_append, Nat.add_assoc]
    rw [lexAt_cons, LieEndToEnd, hend]
    refine ⟨rfl, ?_, ih (offset + w.byteLength)⟩
    change offset < offset + w.byteLength
    omega

theorem text_ne_nil_of_mem_lexAt {offset : Nat} {source : Text} {t : Token}
    (h : t ∈ lexAt offset source) : t.text ≠ [] := by
  induction source using Lexeme.induction generalizing offset with
  | nil => simp at h
  | cons c source ih =>
    rw [lexAt_cons, List.mem_cons] at h
    rcases h with rfl | h
    · exact Lexeme.text_ne_nil c source
    · exact ih h

/-- A token starts where the tokens in front of it end. -/
theorem LieEndToEnd.start_eq {m n : Nat} {before after : List Token} {t : Token}
    (h : LieEndToEnd m n (before ++ t :: after)) :
    t.start = m + Text.byteLength (before.flatMap Token.text) := by
  induction before generalizing m with
  | nil => exact h.1
  | cons b before ih =>
    obtain ⟨rfl, -, hrest⟩ := h
    rw [ih hrest, List.flatMap_cons, Text.byteLength_append, ← Nat.add_assoc]
    rfl

/-- Each token holds what its span holds, and the rules prescribe it there. -/
theorem mem_lexAt (p q : Text) :
    ∀ t ∈ lexAt p.byteLength q, (p ++ q).slice? t.start t.stop = some t.text ∧
      Prescribes t.kind t.text ((p ++ q).dropBytes t.start) := by
  induction q using Lexeme.induction generalizing p with
  | nil => simp
  | cons c q ih =>
    let w := (Lexeme.front c q).text
    let r := (Lexeme.front c q).rest
    have hfront : w ++ r = c :: q := Lexeme.text_append_rest c q
    intro t ht
    rw [lexAt_cons, List.mem_cons] at ht
    rcases ht with rfl | ht
    · refine ⟨Scan.slice?_front p hfront, ?_⟩
      simp only [Text.dropBytes_byteLength]
      exact (prescribes_iff _ _ c q).2 ⟨rfl, rfl⟩
    · rw [← Text.byteLength_append] at ht
      have hrest := ih (p ++ w) t ht
      rwa [List.append_assoc, hfront] at hrest

theorem isTokenization_lex (source : Text) : IsTokenization source (lex source) where
  covers := Nat.zero_add source.byteLength ▸ lieEndToEnd_lexAt 0 source
  slices t ht := (mem_lexAt [] source t ht).1
  rules t ht := (mem_lexAt [] source t ht).2

/-- Tokens that lie end to end from some place on, as the rules prescribe, are those of the lexer. -/
theorem eq_lexAt (p q : Text) (tokens : List Token)
    (hcovers : LieEndToEnd p.byteLength (p ++ q).byteLength tokens)
    (hrules : ∀ t ∈ tokens, Prescribes t.kind t.text ((p ++ q).dropBytes t.start)) :
    tokens = lexAt p.byteLength q := by
  induction tokens generalizing p q with
  | nil =>
    have hq : q.byteLength = 0 := by
      rw [LieEndToEnd, Text.byteLength_append] at hcovers
      omega
    rw [Text.byteLength_eq_zero.1 hq, lexAt_nil]
  | cons t tokens ih =>
    obtain ⟨hstart, -, hrest⟩ := hcovers
    have ht := hrules t List.mem_cons_self
    rw [hstart, Text.dropBytes_byteLength] at ht
    cases q with
    | nil => exact ht.elim
    | cons c q =>
      let w := (Lexeme.front c q).text
      let r := (Lexeme.front c q).rest
      obtain ⟨hkind, htext⟩ := (prescribes_iff _ _ c q).1 ht
      have htoken : t = ⟨(Lexeme.front c q).kind, w, p.byteLength⟩ := by
        cases t
        simp_all [w]
      have hsplit : p ++ c :: q = (p ++ w) ++ r := by
        rw [List.append_assoc, Lexeme.text_append_rest]
      have hstop : t.stop = (p ++ w).byteLength := by
        rw [htoken, Text.byteLength_append]
        rfl
      rw [hsplit, hstop] at hrest
      have htail := ih (p ++ w) r hrest fun u hu => by
        rw [← hsplit]
        exact hrules u (List.mem_cons_of_mem t hu)
      rw [lexAt_cons, htail, htoken, Text.byteLength_append]

theorem isTokenization_iff (source : Text) (tokens : List Token) :
    IsTokenization source tokens ↔ tokens = lex source := by
  constructor
  · intro h
    refine eq_lexAt [] source tokens ?_ h.rules
    exact h.covers
  · intro h
    rw [h]
    exact isTokenization_lex source

/-- The loop over the offsets ends without a bad slice, with the one tokenization of the source. -/
theorem scan_unique_tokenization (source : Text) :
    Scan.tokens? source = some (lex source) ∧
      (∀ tokens, IsTokenization source tokens ↔ tokens = lex source) ∧
      (lex source).flatMap Token.text = source := by
  refine ⟨Scan.tokens?_eq_lex source, isTokenization_iff source, ?_⟩
  exact flatMap_text_lexAt 0 source

end ScriptEditor
