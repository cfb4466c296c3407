import ScriptEditor.Proofs.Escape
import ScriptEditor.Proofs.Tokenization

/-! A reader that takes markup apart, knowing nothing of tokens and styles. -/

namespace ScriptEditor.Markup

/-- A stretch of text without style, or an element with its class and what it shows. -/
inductive Piece
  | text (t : Text)
  | element (c t : Text)
deriving DecidableEq, Repr

namespace Piece

def content : Piece → Text
  | text t => t
  | element _ t => t

/-- The class and the content of an element. -/
def element? : Piece → Option (Text × Text)
  | text _ => none
  | element c t => some (c, t)

def markup : Piece → Text
  | text t => escape t
  | element c t => openTag c ++ escape t ++ closeTag

end Piece

/-- Reads the element at the front of markup that begins with a tag, and gives what follows it. -/
def readElement? (m : Text) : Option (Piece × Text) := do
  let m ← m.dropPrefix? "<span class=\"".toList
  let c := m.takeWhile (· != '"')
  let m ← (m.dropWhile (· != '"')).dropPrefix? "\">".toList
  let t ← unescape? (m.takeWhile (· != '<'))
  let m ← (m.dropWhile (· != '<')).dropPrefix? closeTag
  return (.element c t, m)

theorem length_of_dropPrefix? {m w rest : Text} (h : m.dropPrefix? w = some rest) :
    m.length = w.length + rest.length := by
  obtain ⟨v, rfl, hv⟩ := List.dropPrefix?_eq_some_iff.1 h
  rw [List.length_append, eq_of_beq hv]

theorem length_dropWhile_le (test : Char → Bool) (m : Text) :
    (m.dropWhile test).length ≤ m.length :=
  (List.dropWhile_suffix test).length_le

theorem length_lt_of_readElement? {m rest : Text} {p : Piece}
    (h : readElement? m = some (p, rest)) : rest.length < m.length := by
  simp only [readElement?, Option.bind_eq_bind, Option.bind_eq_some_iff, Option.pure_def,
    Option.some.injEq, Prod.mk.injEq] at h
  obtain ⟨m₁, h₁, m₂, h₂, t, -, m₃, h₃, -, rfl⟩ := h
  have hopen := length_of_dropPrefix? h₁
  have hquote := length_of_dropPrefix? h₂
  have hclose := length_of_dropPrefix? h₃
  have hclass := length_dropWhile_le (· != '"') m₁
  have hcontent := length_dropWhile_le (· != '<') m₂
  have hpos : 0 < closeTag.length := by decide
  omega

/-- Reads markup as elements and the stretches of text between them. -/
def read? (m : Text) : Option (List Piece) :=
  match m with
  | [] => some []
  | c :: m =>
    if c = '<' then
      match _h : readElement? (c :: m) with
      | some (p, rest) => (read? rest).map (p :: ·)
      | none => none
    else do
      let t ← unescape? (c :: m.takeWhile (· != '<'))
      let pieces ← read? (m.dropWhile (· != '<'))
      return .text t :: pieces
termination_by m.length
decreasing_by
  · exact length_lt_of_readElement? (by assumption)
  · exact Nat.lt_succ_of_le (length_dropWhile_le _ m)

theorem takeWhile_until {test : Char → Bool} {w : Text} (hw : ∀ c ∈ w, test c) {d : Char}
    (hd : test d = false) (m : Text) : (w ++ d :: m).takeWhile test = w := by
  rw [List.takeWhile_append_of_pos hw, List.takeWhile_cons_of_neg (by simp [hd]), List.append_nil]

theorem dropWhile_until {test : Char → Bool} {w : Text} (hw : ∀ c ∈ w, test c) {d : Char}
    (hd : test d = false) (m : Text) : (w ++ d :: m).dropWhile test = d :: m := by
  rw [List.dropWhile_append_of_pos hw, List.dropWhile_cons_of_neg (by simp [hd])]

theorem ne_lt_of_mem_escape (t : Text) : ∀ c ∈ escape t, (c != '<') = true := by
  intro c hc
  rw [bne_iff_ne]
  intro heq
  rw [heq] at hc
  exact not_mem_escape (Or.inl rfl) t hc

theorem dropPrefix?_append (w m : Text) : (w ++ m).dropPrefix? w = some m :=
  List.dropPrefix?_append_of_beq m (beq_self_eq_true w)

theorem openTag_eq (c : Text) : openTag c = "<span class=\"".toList ++ (c ++ "\">".toList) := by
  unfold openTag
  rw [List.append_assoc]

theorem readElement?_markup {c : Text} (hc : '"' ∉ c) (t rest : Text) :
    readElement? ((Piece.element c t).markup ++ rest) = some (.element c t, rest) := by
  have hclass : ∀ d ∈ c, (d != '"') = true := by
    intro d hd
    rw [bne_iff_ne]
    intro heq
    rw [heq] at hd
    exact hc hd
  have hend : "\">".toList = ['"', '>'] := rfl
  have hslash : closeTag = '<' :: "/span>".toList := rfl
  have hmarkup : (Piece.element c t).markup ++ rest =
      "<span class=\"".toList ++ (c ++ ("\">".toList ++ (escape t ++ (closeTag ++ rest)))) := by
    simp only [Piece.markup, openTag_eq, List.append_assoc]
  have hquote (m : Text) : (c ++ ("\">".toList ++ m)).dropWhile (· != '"') = "\">".toList ++ m := by
    rw [hend]
    exact dropWhile_until hclass (by decide) ('>' :: m)
  have hname (m : Text) : (c ++ ("\">".toList ++ m)).takeWhile (· != '"') = c := by
    rw [hend]
    exact takeWhile_until hclass (by decide) ('>' :: m)
  have hclose : (escape t ++ (closeTag ++ rest)).dropWhile (· != '<') = closeTag ++ rest := by
    rw [hslash]
    exact dropWhile_until (ne_lt_of_mem_escape t) (by decide) _
  have hcontent : (escape t ++ (closeTag ++ rest)).takeWhile (· != '<') = escape t := by
    rw [hslash]
    exact takeWhile_until (ne_lt_of_mem_escape t) (by decide) _
  rw [readElement?, hmarkup, dropPrefix?_append]
  simp only [Option.bind_eq_bind, Option.bind_some, hquote, hname, dropPrefix?_append, hclose,
    hcontent, unescape?_escape]
  rfl

theorem read?_element {c : Text} (hc : '"' ∉ c) (t rest : Text) :
    read? ((Piece.element c t).markup ++ rest) = (read? rest).map (.element c t :: ·) := by
  have hread := readElement?_markup hc t rest
  obtain ⟨m, hm⟩ : ∃ m, (Piece.element c t).markup ++ rest = '<' :: m := ⟨_, rfl⟩
  rw [hm] at hread ⊢
  rw [read?, if_pos rfl]
  split
  case h_1 p rest' h =>
    rw [hread] at h
    obtain ⟨rfl, rfl⟩ := Prod.mk.inj (Option.some.inj h)
    rfl
  case h_2 h =>
    rw [hread] at h
    cases h

/-- A stretch of text reaches up to the next tag, or to the end. -/
theorem read?_text {t : Text} (ht : t ≠ []) {rest : Text} (hrest : ∀ c ∈ rest.head?, c = '<') :
    read? (escape t ++ rest) = (read? rest).map (.text t :: ·) := by
  cases hm : escape t with
  | nil => exact (ht (escape_eq_nil.1 hm)).elim
  | cons c m =>
    have hplain := ne_lt_of_mem_escape t
    have hunescape := unescape?_escape t
    rw [hm] at hplain hunescape
    have hc : c ≠ '<' := bne_iff_ne.1 (hplain c List.mem_cons_self)
    have hrun : (m ++ rest).takeWhile (· != '<') = m ∧ (m ++ rest).dropWhile (· != '<') = rest := by
      have hm' : ∀ d ∈ m, (d != '<') = true := fun d hd => hplain d (List.mem_cons_of_mem c hd)
      cases rest with
      | nil =>
        rw [List.append_nil]
        exact ⟨List.takeWhile_eq_self_iff.2 hm', List.dropWhile_eq_nil_iff.2 hm'⟩
      | cons d rest =>
        obtain rfl := hrest d rfl
        exact ⟨takeWhile_until hm' rfl rest, dropWhile_until hm' rfl rest⟩
    rw [List.cons_append, read?, if_neg hc, hrun.1, hrun.2, hunescape]
    cases read? rest <;> rfl

/-- Pieces as a reader tells them apart: no stretch of text is empty or follows another. -/
inductive AreApart : List Piece → Prop
  | nil : AreApart []
  | element {c t : Text} {pieces : List Piece} :
      '"' ∉ c → AreApart pieces → AreApart (.element c t :: pieces)
  | text {t : Text} {pieces : List Piece} :
      t ≠ [] → (∀ p ∈ pieces.head?, p.element?.isSome) → AreApart pieces →
        AreApart (.text t :: pieces)

theorem read?_flatMap_markup {pieces : List Piece} (h : AreApart pieces) :
    read? (pieces.flatMap Piece.markup) = some pieces := by
  induction h with
  | nil => simp [read?]
  | @element c t pieces hc _ ih =>
    rw [List.flatMap_cons, read?_element hc, ih]
    rfl
  | @text t pieces ht hnext _ ih =>
    have hrest : ∀ c ∈ (pieces.flatMap Piece.markup).head?, c = '<' := by
      cases pieces with
      | nil => simp
      | cons p pieces =>
        cases p with
        | text u => simpa [Piece.element?] using hnext (.text u) rfl
        | element c u =>
          intro d hd
          exact (Option.some.inj hd).symm
    rw [List.flatMap_cons]
    change read? (escape t ++ _) = _
    rw [read?_text ht hrest, ih]
    rfl

/-- What the markup shows for an occurrence. -/
def Piece.ofOccurrence (sheet : StyleSheet) (names : Names) (o : Occurrence) : Piece :=
  match o.style? names with
  | some s => .element (sheet.classOf s) o.token.text
  | none => .text o.token.text

theorem markup_ofOccurrence (sheet : StyleSheet) (names : Names) (o : Occurrence) :
    (Piece.ofOccurrence sheet names o).markup = element sheet names o := by
  unfold Piece.ofOccurrence element
  cases o.style? names <;> rfl

/-- Puts a stretch of text in front of pieces. -/
def prependText (t : Text) : List Piece → List Piece
  | .text u :: pieces => .text (t ++ u) :: pieces
  | pieces => .text t :: pieces

/-- Makes one stretch of text out of those that follow each other. -/
def joinTexts : List Piece → List Piece
  | [] => []
  | .text t :: pieces => prependText t (joinTexts pieces)
  | .element c t :: pieces => .element c t :: joinTexts pieces

theorem flatMap_prependText {f : Piece → Text} {t : Text}
    (hf : ∀ u, f (.text (t ++ u)) = f (.text t) ++ f (.text u)) (pieces : List Piece) :
    (prependText t pieces).flatMap f = f (.text t) ++ pieces.flatMap f := by
  unfold prependText
  split
  · rw [List.flatMap_cons, List.flatMap_cons, hf, List.append_assoc]
  · rw [List.flatMap_cons]

theorem flatMap_joinTexts {f : Piece → Text}
    (hf : ∀ t u, f (.text (t ++ u)) = f (.text t) ++ f (.text u)) (pieces : List Piece) :
    (joinTexts pieces).flatMap f = pieces.flatMap f := by
  induction pieces with
  | nil => rfl
  | cons p pieces ih =>
    cases p with
    | text t => rw [joinTexts, flatMap_prependText (hf t), ih, List.flatMap_cons]
    | element c t => rw [joinTexts, List.flatMap_cons, ih, List.flatMap_cons]

theorem elements_prependText (t : Text) (pieces : List Piece) :
    (prependText t pieces).filterMap Piece.element? = pieces.filterMap Piece.element? := by
  unfold prependText
  split <;> rfl

theorem elements_joinTexts (pieces : List Piece) :
    (joinTexts pieces).filterMap Piece.element? = pieces.filterMap Piece.element? := by
  induction pieces with
  | nil => rfl
  | cons p pieces ih =>
    cases p with
    | text t =>
      rw [joinTexts, elements_prependText, ih]
      rfl
    | element c t =>
      have hc : (Piece.element c t).element? = some (c, t) := rfl
      rw [joinTexts, List.filterMap_cons_some hc, List.filterMap_cons_some hc, ih]

theorem areApart_joinTexts {pieces : List Piece} (hcontent : ∀ p ∈ pieces, p.content ≠ [])
    (hclass : ∀ c t, Piece.element c t ∈ pieces → '"' ∉ c) : AreApart (joinTexts pieces) := by
  induction pieces with
  | nil => exact .nil
  | cons p pieces ih =>
    have hrest := ih (fun q hq => hcontent q (List.mem_cons_of_mem p hq))
      (fun c t h => hclass c t (List.mem_cons_of_mem p h))
    cases p with
    | element c t => exact .element (hclass c t List.mem_cons_self) hrest
    | text t =>
      have ht : t ≠ [] := hcontent (.text t) List.mem_cons_self
      rw [joinTexts]
      generalize joinTexts pieces = joined at hrest
      cases hrest with
      | nil => exact .text ht (by simp) .nil
      | element hc hrest => exact .text ht (by simp [Piece.element?]) (.element hc hrest)
      | text hu hnext hrest => exact .text (by simp [ht]) hnext hrest

end ScriptEditor.Markup
