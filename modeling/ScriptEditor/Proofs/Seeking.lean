import Mathlib.Data.List.Basic
import ScriptEditor.Proofs.Matching
import ScriptEditor.Proofs.Nesting
import ScriptEditor.Seek

namespace ScriptEditor

/-- A letter or an underscore, and then letters, digits and underscores. -/
def IsWord (w : Text) : Prop :=
  ∃ c t, w = c :: t ∧ (IsLetter c ∨ c = '_') ∧ ∀ d ∈ t, IsLetter d ∨ IsDigit d ∨ d = '_'

/-- The names of all uses. -/
def Names.listed (names : Names) : List Text :=
  names.assigned ++ names.looped ++ names.params ++ names.functions

section

variable {tokens rest : List Token} {t u : Token} {i j n : Nat} {opening closing : Char}
  {source : Text}

/-- No token is lost if an index past the last one is cut down to the number of tokens. -/
theorem drop_min_length (tokens : List Token) (i : Nat) :
    tokens.drop (min i tokens.length) = tokens.drop i := by
  rcases Nat.le_total i tokens.length with hle | hle
  · rw [Nat.min_eq_left hle]
  · rw [Nat.min_eq_right hle, List.drop_length, List.drop_eq_nil_of_le hle]

theorem drop_skipBlanksFrom (tokens : List Token) (i : Nat) :
    tokens.drop (skipBlanksFrom tokens i) = skipBlanks (tokens.drop i) := by
  have hblanks (l : List Token) : l.drop (l.takeWhile Token.isBlank).length = skipBlanks l := by
    calc
      l.drop (l.takeWhile Token.isBlank).length =
          (l.takeWhile Token.isBlank ++ skipBlanks l).drop (l.takeWhile Token.isBlank).length :=
        congrArg _ List.takeWhile_append_dropWhile.symm
      _ = skipBlanks l := List.drop_left
  rw [skipBlanksFrom, ← List.drop_drop, drop_min_length, hblanks]

theorem getElem?_skipBlanksFrom (tokens : List Token) (i : Nat) :
    tokens[skipBlanksFrom tokens i]? = (skipBlanks (tokens.drop i)).head? := by
  rw [← drop_skipBlanksFrom, List.head?_drop]

theorem drop_of_drop_eq_cons (h : tokens.drop i = t :: rest) :
    tokens.drop (i + 1) = rest ∧ i < tokens.length := by
  constructor
  · rw [← List.drop_drop, h]
    rfl
  · by_contra hle
    rw [List.drop_eq_nil_of_le (Nat.le_of_not_lt hle)] at h
    cases h

theorem findIdx?_not_isBlank (tokens : List Token) :
    tokens.findIdx? (fun t => !t.isBlank) =
      if (tokens.takeWhile Token.isBlank).length < tokens.length then
        some (tokens.takeWhile Token.isBlank).length
      else none := by
  induction tokens with
  | nil => rfl
  | cons t rest ih =>
    rw [List.findIdx?_cons, ih]
    cases ht : t.isBlank with
    | false => simp [ht]
    | true =>
      simp only [Bool.not_true, Bool.false_eq_true, if_false, List.takeWhile_cons_of_pos ht,
        List.length_cons, Nat.add_lt_add_iff_right]
      split <;> rfl

namespace Seek

theorem slice?_eq (hij : i ≤ j) (hj : j ≤ tokens.length) :
    slice? tokens i j = some ((tokens.drop i).take (j - i)) :=
  if_pos ⟨hij, hj⟩

theorem advance?_eq (h : i + n ≤ tokens.length) : advance? tokens i n = some (i + n) := if_pos h

theorem skipBlanks?_eq (tokens : List Token) (i : Nat) :
    skipBlanks? tokens i = some (skipBlanksFrom tokens i) := by
  have hbehind : (tokens.drop (min i tokens.length)).take (tokens.length - min i tokens.length) =
      tokens.drop i := by
    rw [List.take_of_length_le (by rw [List.length_drop]), drop_min_length]
  have hblanks := (List.takeWhile_prefix Token.isBlank (l := tokens.drop i)).length_le
  have hlength : (tokens.drop i).length = tokens.length - i := List.length_drop
  rw [skipBlanks?, slice?_eq (Nat.min_le_right _ _) (Nat.le_refl _), hbehind]
  rw [Option.bind_eq_bind, Option.bind_some, findIdx?_not_isBlank]
  by_cases hlt : ((tokens.drop i).takeWhile Token.isBlank).length < (tokens.drop i).length
  case pos =>
    -- There is a token at the index, so the index was not cut down to the number of tokens.
    have hi : min i tokens.length = i := by omega
    rw [if_pos hlt, skipBlanksFrom, hi]
    exact advance?_eq (by omega)
  case neg =>
    have hall : skipBlanksFrom tokens i = tokens.length := by
      rw [skipBlanksFrom]
      omega
    rw [if_neg hlt, hall]
    rfl

theorem matchingIndex?_eq (opening closing : Char) (tokens : List Token) (i : Nat) :
    matchingIndex? opening closing tokens i =
      some (ScriptEditor.matchingIndex? opening closing tokens i) := by
  apply countedIndex?_eq
  rw [List.length_drop]
  omega

/-- The next token is at the front of what is left behind the blanks. -/
theorem next?_eq (h : tokens.drop i = t :: rest) : ∃ k, tokens.drop k = skipBlanks rest ∧
    next? tokens i = some (k, (skipBlanks rest).head?) := by
  obtain ⟨hdrop, hlt⟩ := drop_of_drop_eq_cons h
  have hnext : advance? tokens i 1 = some (i + 1) := advance?_eq hlt
  refine ⟨skipBlanksFrom tokens (i + 1), ?_, ?_⟩
  · rw [drop_skipBlanksFrom, hdrop]
  · rw [next?, hnext]
    simp only [Option.bind_eq_bind, Option.bind_some, skipBlanks?_eq, getElem?_skipBlanksFrom, hdrop]
    rfl

theorem closingIndex?_shift (d i n : Nat) (tokens : List Token) :
    closingIndex? opening closing d (i + n) tokens =
      (closingIndex? opening closing d n tokens).map (i + ·) := by
  -- The index is counted along with the tokens, and no test looks at it.
  induction tokens generalizing d n with
  | nil => rfl
  | cons t rest ih =>
    rw [closingIndex?.eq_def, closingIndex?.eq_def _ _ _ n]
    dsimp only
    split
    · exact ih (d + 1) (n + 1)
    · split
      · rcases d with _ | _ | d
        · rfl
        · rfl
        · exact ih (d + 1) (n + 1)
      · exact ih d (n + 1)

theorem le_of_closingIndex? {d : Nat} (h : closingIndex? opening closing d i tokens = some j) :
    i ≤ j ∧ j < i + tokens.length := by
  induction tokens generalizing d i with
  | nil => cases h
  | cons t rest ih =>
    rw [closingIndex?.eq_def] at h
    rw [List.length_cons]
    dsimp only at h
    split at h
    case isTrue =>
      have := ih h
      omega
    split at h
    case isTrue =>
      rcases d with _ | _ | d
      · cases h
      · cases h
        omega
      · have := ih h
        omega
    case isFalse =>
      have := ih h
      omega

/-- The lookup at the index of a token finds the end of the group at the front of what is left there. -/
theorem matchingIndex?_of_drop (h : tokens.drop i = rest) :
    matchingIndex? opening closing tokens i =
      some ((closingIndex? opening closing 0 0 rest).map (i + ·)) := by
  rw [matchingIndex?_eq, ScriptEditor.matchingIndex?, h, ← closingIndex?_shift]
  rfl

theorem loopName?_eq (h : tokens.drop i = t :: rest) (ht : t.isKeyword Word.opensLoop) :
    loopName? tokens i = some (Occurrence.loopName? ⟨t, rest⟩) := by
  obtain ⟨k, hk, hnext⟩ := next?_eq h
  rw [loopName?, hnext, Occurrence.loopName?, if_pos ht]
  dsimp only
  cases hskip : skipBlanks rest with
  | nil => rfl
  | cons name behind =>
    obtain ⟨k', -, hjoins⟩ := next?_eq (hskip ▸ hk)
    simp only [Option.bind_eq_bind, Option.bind_some, List.head?_cons, hjoins]
    cases name.isIdentifier <;> rfl

/-- Behind the group at the front of what is left, the next token is found. -/
theorem next?_behind_group (h : tokens.drop i = rest)
    (hclose : closingIndex? opening closing 0 0 rest = some n) :
    ∃ k, next? tokens (i + n) = some (k, (skipBlanks (rest.drop (n + 1))).head?) := by
  have hlt : n < rest.length := by
    have := (le_of_closingIndex? hclose).2
    omega
  have hdrop : tokens.drop (i + n) = rest[n] :: rest.drop (n + 1) := by
    rw [← List.drop_drop, h]
    exact List.drop_eq_getElem_cons hlt
  obtain ⟨k, -, hnext⟩ := next?_eq hdrop
  exact ⟨k, hnext⟩

theorem isAssigned?_eq (h : tokens.drop i = t :: rest) (ht : t.isIdentifier) :
    isAssigned? tokens i = some (Occurrence.isAssigned ⟨t, rest⟩) := by
  obtain ⟨k, hk, hnext⟩ := next?_eq h
  rw [isAssigned?, hnext, Occurrence.isAssigned, Occurrence.isFollowedBy, Occurrence.isFollowedBy, ht,
    Bool.true_and]
  dsimp only
  cases hskip : skipBlanks rest with
  | nil => rfl
  | cons sign behind =>
    rw [hskip] at hk
    rw [Option.bind_eq_bind, Option.bind_some, List.head?_cons, Option.any_some, Option.any_some]
    dsimp only
    by_cases hopen : sign.isChar '['
    case neg =>
      rw [if_neg hopen, if_neg hopen]
      rfl
    rw [if_pos hopen, if_pos hopen, matchingIndex?_of_drop hk, splitGroup?]
    cases hclose : closingIndex? '[' ']' 0 0 (sign :: behind) with
    | none => rfl
    | some n =>
      obtain ⟨k', hbehind⟩ := next?_behind_group hk hclose
      rw [Option.map_some, Option.map_some, Option.bind_eq_bind, Option.bind_some]
      dsimp only
      rw [hbehind]
      rfl

/-- A group that opens at the index ends behind it, so the slice of what is inside is in order. -/
theorem argumentNames?_eq (h : tokens.drop i = u :: rest) (hu : u.isChar '(') (t : Token)
    {after : List Token} (hafter : skipBlanks after = u :: rest) :
    argumentNames? tokens i = some (Occurrence.argumentNames ⟨t, after⟩) := by
  rw [argumentNames?, matchingIndex?_of_drop h, Occurrence.argumentNames, splitGroup?, hafter]
  cases hclose : closingIndex? '(' ')' 0 0 (u :: rest) with
  | none => rfl
  | some n =>
    have hlt := (le_of_closingIndex? hclose).2
    rw [closingIndex?_opening _ _ _ hu] at hclose
    have hpos := (le_of_closingIndex? hclose).1
    have hlength : (u :: rest).length = tokens.length - i := by rw [← h, List.length_drop]
    have hnext : advance? tokens i 1 = some (i + 1) := advance?_eq (by omega)
    -- The bracket at the index is counted as open before the scan goes on, so it cannot be the last one.
    have hslice : slice? tokens (i + 1) (i + n) = some (((u :: rest).take n).drop 1) := by
      rw [slice?_eq (by omega) (by omega), ← List.drop_drop, h, List.drop_take]
      congr 2
      omega
    simp only [Option.map_some, Option.bind_eq_bind, Option.bind_some, hnext, hslice]
    rfl

theorem charOffsets_append (k : Nat) (a b : Text) :
    Scan.charOffsets k (a ++ b) = Scan.charOffsets k a ++ Scan.charOffsets (k + a.byteLength) b := by
  induction a generalizing k with
  | nil => rfl
  | cons c a ih =>
    rw [List.cons_append, Scan.charOffsets, Scan.charOffsets, ih, Text.byteLength_cons, Nat.add_assoc]
    rfl

theorem mem_of_mem_charOffsets {k : Nat} {a : Text} {x : Nat × Char}
    (h : x ∈ Scan.charOffsets k a) : x.2 ∈ a := by
  induction a generalizing k with
  | nil => cases h
  | cons c a ih =>
    rw [Scan.charOffsets, List.mem_cons] at h
    rcases h with rfl | h
    · exact List.mem_cons_self
    · exact List.mem_cons_of_mem c (ih h)

theorem find?_reverse_charOffsets {k : Nat} {w : Text} (hw : '\n' ∉ w) :
    (Scan.charOffsets k w).reverse.find? (fun x => x.2 == '\n') = none := by
  rw [List.find?_eq_none]
  intro x hx hfeed
  rw [List.mem_reverse] at hx
  exact hw (beq_iff_eq.1 hfeed ▸ mem_of_mem_charOffsets hx)

theorem exists_last_lineFeed {p : Text} (h : '\n' ∈ p) :
    ∃ front line, p = front ++ '\n' :: line ∧ '\n' ∉ line := by
  obtain ⟨line, front, hp, hline⟩ := List.eq_append_cons_of_mem (List.mem_reverse.2 h)
  refine ⟨front.reverse, line.reverse, ?_, ?_⟩
  · rw [← List.reverse_reverse p, hp]
    simp
  · rwa [List.mem_reverse]

theorem lineBefore?_eq (source : Text) (offset : Nat) :
    lineBefore? source offset = source.lineBefore? offset := by
  by_cases h : source.isBoundary offset
  case neg =>
    -- The first of the two slices fails already.
    rw [lineBefore?, Text.slice?, Text.lineBefore?, if_neg h, if_neg (by simp [h])]
    rfl
  obtain ⟨p, q, rfl, rfl⟩ := Text.isBoundary_iff.1 h
  have hslice : (p ++ q).slice? 0 p.byteLength = some p :=
    Text.slice?_eq_some_iff.2 ⟨[], q, rfl, rfl, Nat.zero_add _⟩
  rw [lineBefore?, hslice, Text.lineBefore?, if_pos h, Text.lineBefore, Text.takeBytes_byteLength]
  simp only [Option.bind_eq_bind, Option.bind_some]
  by_cases hfeed : '\n' ∈ p
  case neg =>
    have hline : Text.lastLine p = p := by
      have := Text.lastLine_append_of_not_mem hfeed []
      simpa using this
    rw [find?_reverse_charOffsets hfeed, hline]
    exact Scan.behind?_append [] p
  -- The second slice starts behind a line feed, which is one byte long.
  obtain ⟨front, line, rfl, hline⟩ := exists_last_lineFeed hfeed
  have hsplit : front ++ '\n' :: line = (front ++ ['\n']) ++ line := by simp
  have hlast : Text.lastLine (front ++ '\n' :: line) = line := by
    rw [hsplit, Text.lastLine_append_of_not_mem hline, Text.lastLine_append_singleton, if_pos rfl]
    rfl
  have hoffset : front.byteLength + 1 = (front ++ ['\n']).byteLength := by
    rw [Text.byteLength_append]
    rfl
  rw [charOffsets_append, List.reverse_append, Scan.charOffsets, List.reverse_cons,
    List.append_assoc, List.find?_append, find?_reverse_charOffsets hline, Option.none_or,
    List.singleton_append, List.find?_cons_of_pos rfl, hlast, Nat.zero_add]
  dsimp only
  rw [hoffset, hsplit]
  exact Scan.behind?_append _ line

/-- A loop over tokens with their indices is one over the tokens in their places. -/
theorem foldlM_zipIdx {β : Type} {f : β → Token × Nat → Option β} {g : β → Occurrence → Option β}
    (hstep : ∀ i t rest b, tokens.drop i = t :: rest → f b (t, i) = g b ⟨t, rest⟩) (b : β) :
    tokens.zipIdx.foldlM f b = (occurrences tokens).foldlM g b := by
  -- The loop goes on at any index, with the tokens from there on.
  have hrun (i : Nat) (rest : List Token) (b : β) (hrest : tokens.drop i = rest) :
      (rest.zipIdx i).foldlM f b = (occurrences rest).foldlM g b := by
    induction rest generalizing i b with
    | nil => rfl
    | cons t rest ih =>
      rw [List.zipIdx_cons, occurrences_cons, List.foldlM_cons, List.foldlM_cons,
        hstep i t rest b hrest]
      congr 1
      funext c
      exact ih (i + 1) c (drop_of_drop_eq_cons hrest).1
  exact hrun 0 tokens b rfl

theorem put_eraseDups (names more : List Text) :
    put names.eraseDups more = (names ++ more).eraseDups := by
  induction more generalizing names with
  | nil => rw [List.append_nil, put, List.foldl_nil]
  | cons n more ih =>
    have hone : (if names.eraseDups.contains n then names.eraseDups
        else names.eraseDups ++ [n]) = (names ++ [n]).eraseDups := by
      rw [List.eraseDups_append]
      by_cases hn : n ∈ names <;> simp [List.removeAll, hn, List.eraseDups_cons]
    rw [put, List.foldl_cons, hone, List.append_cons names n more]
    exact ih (names ++ [n])

/-- The names of both, those of the second behind those of the first. -/
def join (names more : Names) : Names where
  assigned := put names.assigned more.assigned
  looped := put names.looped more.looped
  params := put names.params more.params
  functions := put names.functions more.functions

/-- The uses of names that the place shows. -/
def usesAt (source : Text) (o : Occurrence) : Names where
  assigned := if o.isAssigned then [o.token.text] else []
  looped := o.loopName?.toList
  params := if o.isDeclaration source then o.argumentNames else []
  functions := if o.isCall then [o.token.text] else []

/-- The uses of names that the places show, each once. -/
def uses (source : Text) (places : List Occurrence) : Names where
  assigned := ((places.filter Occurrence.isAssigned).map (·.token.text)).eraseDups
  looped := (places.filterMap Occurrence.loopName?).eraseDups
  params := ((places.filter (·.isDeclaration source)).flatMap Occurrence.argumentNames).eraseDups
  functions := ((places.filter Occurrence.isCall).map (·.token.text)).eraseDups

theorem uses_occurrences (source : Text) (tokens : List Token) :
    uses source (occurrences tokens) = Names.ofTokens source tokens := by
  rw [uses, ← Names.params_ofTokens]
  rfl

theorem uses_concat (source : Text) (before : List Occurrence) (o : Occurrence) :
    uses source (before ++ [o]) = join (uses source before) (usesAt source o) := by
  have hassigned : ([o].filter Occurrence.isAssigned).map (·.token.text) =
      if o.isAssigned then [o.token.text] else [] := by
    cases h : o.isAssigned <;> simp [h]
  have hlooped : [o].filterMap Occurrence.loopName? = o.loopName?.toList := by
    cases h : o.loopName? <;> simp [h]
  have hparams : ([o].filter (·.isDeclaration source)).flatMap Occurrence.argumentNames =
      if o.isDeclaration source then o.argumentNames else [] := by
    cases h : o.isDeclaration source <;> simp [h]
  have hfunctions : ([o].filter Occurrence.isCall).map (·.token.text) =
      if o.isCall then [o.token.text] else [] := by
    cases h : o.isCall <;> simp [h]
  simp only [uses, join, usesAt, put_eraseDups, List.filter_append, List.map_append,
    List.filterMap_append, List.flatMap_append, hassigned, hlooped, hparams, hfunctions]

/-- Adds the uses of the place, unless it is a call that starts at no boundary. -/
def noted? (source : Text) (names : Names) (o : Occurrence) : Option Names :=
  if !o.isCall || source.isBoundary o.token.start then some (join names (usesAt source o)) else none

theorem foldlM_noted? (source : Text) (before places : List Occurrence) :
    places.foldlM (noted? source) (uses source before) =
      if places.all fun o => !o.isCall || source.isBoundary o.token.start then
        some (uses source (before ++ places))
      else none := by
  induction places generalizing before with
  | nil => simp
  | cons o places ih =>
    rw [List.foldlM_cons, List.all_cons, noted?]
    by_cases ho : (!o.isCall || source.isBoundary o.token.start) = true
    case neg => simp [ho]
    rw [if_pos ho, ho, Bool.true_and, ← uses_concat, Option.bind_eq_bind, Option.bind_some, ih,
      List.append_assoc, List.singleton_append]

/-- A name is looked at twice: for a sign of assignment behind it, and for a parenthesis. -/
theorem note?_of_isIdentifier (names : Names) (h : tokens.drop i = t :: rest)
    (ht : t.isIdentifier) :
    note? source tokens names (t, i) = noted? source names ⟨t, rest⟩ := by
  have hopens : ¬ t.isKeyword Word.opensLoop := by
    rw [Token.isKeyword, beq_iff_eq.1 ht]
    exact Bool.false_ne_true
  have hloop : Occurrence.loopName? ⟨t, rest⟩ = none := if_neg hopens
  obtain ⟨k, hk, hnext⟩ := next?_eq h
  have hcall : Occurrence.isCall ⟨t, rest⟩ = (skipBlanks rest).head?.any (Token.isChar '(') := by
    rw [Occurrence.isCall, ht, Bool.true_and]
    rfl
  have hassigned : (if Occurrence.isAssigned ⟨t, rest⟩ then
        { names with assigned := put names.assigned [t.text] } else names) =
      { names with
        assigned := put names.assigned (if Occurrence.isAssigned ⟨t, rest⟩ then [t.text] else []) } := by
    split <;> rfl
  simp only [note?, if_neg hopens, if_pos ht, isAssigned?_eq h ht, hnext, hassigned,
    lineBefore?_eq, Text.lineBefore?, Option.bind_eq_bind, Option.bind_some]
  by_cases hsign : (skipBlanks rest).head?.any (Token.isChar '(')
  case neg =>
    rw [Bool.not_eq_true] at hsign
    rw [hsign] at hcall
    simp only [hsign, noted?, usesAt, hcall, hloop, Occurrence.isDeclaration]
    rfl
  rw [hsign] at hcall
  cases hskip : skipBlanks rest with
  | nil =>
    rw [hskip] at hsign
    cases hsign
  | cons u behind =>
    have hu : u.isChar '(' := by
      rw [hskip] at hsign
      exact hsign
    rw [← hskip, if_pos hsign]
    -- The line in front of a call is the only slice of the source, and the only one that can fail.
    by_cases hstart : source.isBoundary t.start
    case neg =>
      rw [if_neg hstart, noted?, hcall]
      simp [hstart]
    have hdeclares : Occurrence.isDeclaration source ⟨t, rest⟩ =
        introducesDeclaration (source.lineBefore t.start) := by
      rw [Occurrence.isDeclaration, hcall, Bool.true_and]
    rw [if_pos hstart, Option.bind_some, argumentNames?_eq (hk.trans hskip) hu t hskip]
    simp only [noted?, usesAt, hcall, hloop, hstart, hdeclares]
    by_cases hline : introducesDeclaration (source.lineBefore t.start)
    · rw [if_pos hline, if_pos hline]
      rfl
    · rw [if_neg hline, if_neg hline]
      rfl

theorem note?_eq (names : Names) (h : tokens.drop i = t :: rest) :
    note? source tokens names (t, i) = noted? source names ⟨t, rest⟩ := by
  by_cases hname : t.isIdentifier
  case pos => exact note?_of_isIdentifier names h hname
  -- No other token than a name is assigned to, called or declared.
  rw [Bool.not_eq_true] at hname
  by_cases hopens : t.isKeyword Word.opensLoop
  case pos =>
    simp only [note?, if_pos hopens, loopName?_eq h hopens, noted?, usesAt, Occurrence.isCall,
      Occurrence.isAssigned, Occurrence.isDeclaration, hname]
    rfl
  case neg =>
    have hloop : Occurrence.loopName? ⟨t, rest⟩ = none := if_neg hopens
    simp only [note?, if_neg hopens, hname, noted?, usesAt, Occurrence.isCall,
      Occurrence.isAssigned, Occurrence.isDeclaration, hloop]
    rfl

/-- The loop over the tokens finds the names that they show, and stops where a call starts at no
boundary of the source. -/
theorem names?_eq (source : Text) (tokens : List Token) :
    names? source tokens = Names.ofTokens? source tokens := by
  have hrun := foldlM_noted? source [] (occurrences tokens)
  rw [List.nil_append, uses_occurrences] at hrun
  rw [names?, foldlM_zipIdx (fun i t rest names h => note?_eq names h)]
  exact hrun

theorem style?_eq (names : Names) (tokens : List Token) (i : Nat) :
    style? names tokens i = some (styleAt? names tokens i) := by
  rw [style?, styleAt?]
  cases htoken : tokens[i]? with
  | none => rw [List.drop_eq_nil_of_le (List.getElem?_eq_none_iff.1 htoken)]
  | some t =>
    have hdrop := drop_of_getElem? htoken
    obtain ⟨k, -, hnext⟩ := next?_eq hdrop
    rw [hdrop]
    dsimp only
    rw [Occurrence.style?]
    cases hkind : t.kind
    case identifier =>
      rw [hnext]
      rfl
    all_goals rfl

theorem write?_eq (sheet : StyleSheet) (names : Names) (out : Text)
    (h : tokens.drop i = t :: rest) :
    write? sheet names tokens out (t, i) = some (out ++ Markup.element sheet names ⟨t, rest⟩) := by
  have hstyle : styleAt? names tokens i = Occurrence.style? names ⟨t, rest⟩ := by rw [styleAt?, h]
  rw [write?, style?_eq, hstyle, Markup.element]
  cases Occurrence.style? names ⟨t, rest⟩ with
  | none => rfl
  | some s => simp

theorem markup?_eq (sheet : StyleSheet) (names : Names) (tokens : List Token) :
    markup? sheet names tokens = some (Markup.ofTokens sheet names tokens) := by
  let step (out : Text) (o : Occurrence) : Option Text := pure (out ++ Markup.element sheet names o)
  have hstep (i : Nat) (t : Token) (rest : List Token) (out : Text)
      (h : tokens.drop i = t :: rest) : write? sheet names tokens out (t, i) = step out ⟨t, rest⟩ :=
    write?_eq sheet names out h
  rw [markup?, foldlM_zipIdx hstep, Markup.ofTokens, List.flatMap_eq_foldl]
  exact congrArg (Option.map Markup.orPlaceholder) List.foldlM_pure

theorem byteLength_le_escape (w : Text) : w.byteLength ≤ (Markup.escape w).byteLength := by
  have hchar (c : Char) : c.utf8Size ≤ Text.byteLength (Markup.escapeChar c) := by
    rw [Markup.escapeChar]
    split
    case isTrue h => rw [h]; decide
    split
    case isTrue h => rw [h]; decide
    split
    case isTrue h => rw [h]; decide
    case isFalse => exact Nat.le_refl _
  induction w with
  | nil => exact Nat.le_refl 0
  | cons c w ih =>
    rw [Markup.escape, List.flatMap_cons, Text.byteLength_append, Text.byteLength_cons]
    exact Nat.add_le_add (hchar c) ih

theorem byteLength_le_element (sheet : StyleSheet) (names : Names) (o : Occurrence) :
    o.token.byteLength ≤ Text.byteLength (Markup.element sheet names o) := by
  have htext : o.token.byteLength ≤ Text.byteLength (Markup.escape o.token.text) :=
    byteLength_le_escape o.token.text
  rw [Markup.element]
  split
  case h_1 =>
    rw [Text.byteLength_append, Text.byteLength_append]
    omega
  case h_2 => exact htext

/-- No more room is set aside than twice what the markup takes. -/
theorem room_le (sheet : StyleSheet) (names : Names) (tokens : List Token) :
    room tokens ≤ (Markup.ofTokens sheet names tokens).byteLength * 2 := by
  have hsum (n : Nat) : tokens.foldl (fun n t => n + t.byteLength) n ≤
      n + Text.byteLength ((occurrences tokens).flatMap (Markup.element sheet names)) := by
    induction tokens generalizing n with
    | nil => exact Nat.le_refl n
    | cons t rest ih =>
      have htoken := byteLength_le_element sheet names ⟨t, rest⟩
      have hrest := ih (n + t.byteLength)
      rw [List.foldl_cons, occurrences_cons, List.flatMap_cons, Text.byteLength_append]
      dsimp only at htoken
      omega
  have hplaceholder (w : Text) : w.byteLength ≤ (Markup.orPlaceholder w).byteLength := by
    cases w with
    | nil => exact Nat.zero_le _
    | cons c w => exact Nat.le_refl _
  have hall := hsum 0
  have hmarkup := hplaceholder ((occurrences tokens).flatMap (Markup.element sheet names))
  rw [room, Markup.ofTokens]
  omega

theorem mem_of_mem_skipBlanks (h : t ∈ skipBlanks tokens) : t ∈ tokens :=
  (List.dropWhile_sublist _).subset h

theorem exists_of_loopName? {o : Occurrence} {name : Text} (h : o.loopName? = some name) :
    ∃ t ∈ o.rest, t.isIdentifier ∧ t.text = name := by
  obtain ⟨-, gap, t, gap', joins, after, hrest, -, hname, htext, -, -⟩ := loopName?_eq_some_iff.1 h
  refine ⟨t, ?_, hname, htext⟩
  rw [hrest]
  exact List.mem_append_right _ List.mem_cons_self

theorem exists_of_mem_argumentNames {o : Occurrence} {name : Text} (h : name ∈ o.argumentNames) :
    ∃ t ∈ o.rest, t.isIdentifier ∧ t.text = name := by
  rw [Occurrence.argumentNames] at h
  split at h
  case h_1 inside behind hgroup =>
    obtain ⟨n, -, hinside⟩ := Option.map_eq_some_iff.1 hgroup
    obtain ⟨t, ht, htext⟩ := List.mem_map.1 h
    obtain ⟨hmem, hname⟩ := List.mem_filter.1 ht
    rw [← (Prod.mk.inj hinside).1] at hmem
    exact ⟨t, mem_of_mem_skipBlanks (List.mem_of_mem_take (List.mem_of_mem_drop hmem)), hname, htext⟩
  case h_2 => cases h

/-- A name of any use is the text of a token that is a name. -/
theorem exists_of_mem_listed {name : Text} (h : name ∈ (Names.ofTokens source tokens).listed) :
    ∃ t ∈ tokens, t.isIdentifier ∧ t.text = name := by
  have hplace {o : Occurrence} (ho : o ∈ occurrences tokens) :
      o.token ∈ tokens ∧ ∀ t ∈ o.rest, t ∈ tokens := by
    obtain ⟨before, hsplit⟩ := mem_occurrences.1 ho
    rw [hsplit]
    exact ⟨List.mem_append_right _ List.mem_cons_self,
      fun t ht => List.mem_append_right _ (List.mem_cons_of_mem _ ht)⟩
  have hown {p : Occurrence → Bool} (hp : ∀ o, p o → o.token.isIdentifier)
      (hmem : name ∈ ((occurrences tokens).filter p).map (·.token.text)) :
      ∃ t ∈ tokens, t.isIdentifier ∧ t.text = name := by
    obtain ⟨o, ho, htext⟩ := List.mem_map.1 hmem
    obtain ⟨ho, htest⟩ := List.mem_filter.1 ho
    exact ⟨o.token, (hplace ho).1, hp o htest, htext⟩
  have hisName (o : Occurrence) (b : Bool) (ho : o.token.isIdentifier && b) :
      o.token.isIdentifier := by
    rw [Bool.and_eq_true] at ho
    exact ho.1
  rw [← uses_occurrences, Names.listed, List.mem_append, List.mem_append, List.mem_append] at h
  simp only [uses, List.mem_eraseDups] at h
  rcases h with ((hassigned | hlooped) | hparams) | hfunctions
  · exact hown (fun o => hisName o _) hassigned
  · obtain ⟨o, ho, hname⟩ := List.mem_filterMap.1 hlooped
    obtain ⟨t, ht, hname⟩ := exists_of_loopName? hname
    exact ⟨t, (hplace ho).2 t ht, hname⟩
  · obtain ⟨o, ho, hname⟩ := List.mem_flatMap.1 hparams
    obtain ⟨t, ht, hname⟩ := exists_of_mem_argumentNames hname
    exact ⟨t, (hplace (List.mem_filter.1 ho).1).2 t ht, hname⟩
  · exact hown (fun o => hisName o _) hfunctions

theorem isWord_of_prescribes {w q : Text} (h : Prescribes .identifier w q) :
    IsWord w ∧ w ∉ Word.keywords ∧ w ∉ Word.literals := by
  cases q with
  | nil => exact h.elim
  | cons c q =>
    rw [Prescribes] at h
    split at h
    case isTrue => cases h.1
    split at h
    case isTrue => cases h.1
    split at h
    case isTrue hstart =>
      obtain ⟨hkind, r, hsplit, hw, hr⟩ := h
      have hkeyword : w ∉ Word.keywords := by
        intro hmem
        rw [if_pos hmem] at hkind
        cases hkind
      have hliteral : w ∉ Word.literals := by
        intro hmem
        rw [if_neg hkeyword, if_pos hmem] at hkind
        cases hkind
      refine ⟨?_, hkeyword, hliteral⟩
      cases w with
      | nil =>
        -- A run that could go on with the first character of the word is not empty.
        have hfirst : c ∈ r.head? := by
          rw [List.nil_append] at hsplit
          rw [← hsplit]
          rfl
        exact absurd (hstart.imp_right Or.inr) (hr c hfirst)
      | cons d w =>
        obtain ⟨rfl, -⟩ := List.cons.inj hsplit
        exact ⟨c, w, rfl, hstart, (List.forall_mem_cons.1 hw).2⟩
    split at h
    case isTrue => cases h.1
    split at h
    case isTrue => cases h.1
    case isFalse => cases h.1

theorem isWord_of_mem_lex (ht : t ∈ lex source) (hname : t.isIdentifier) :
    IsWord t.text ∧ t.text ∉ Word.keywords ∧ t.text ∉ Word.literals := by
  have hrule := (isTokenization_lex source).rules t ht
  rw [beq_iff_eq.1 hname] at hrule
  exact isWord_of_prescribes hrule

theorem isBoundary_of_ofSpan? {kind : Kind} {start stop : Nat}
    (h : Token.ofSpan? kind source start stop = some t) : source.isBoundary t.start := by
  obtain ⟨text, hslice, rfl⟩ := Option.map_eq_some_iff.1 h
  obtain ⟨p, q, rfl, hstart, -⟩ := Text.slice?_eq_some_iff.1 hslice
  exact Text.isBoundary_iff.2 ⟨p, text ++ q, List.append_assoc _ _ _, hstart⟩

/-- Among slices of a source, in any order, nothing that is looked up by an index is missed, and each name
is the text of a token that is a name. The markup takes at least half the room set aside for it. -/
theorem names?_of_slices (source : Text) (tokens : List Token)
    (h : ∀ t ∈ tokens, ∃ kind start stop, Token.ofSpan? kind source start stop = some t) :
    (∃ names, names? source tokens = some names ∧ names = Names.ofTokens source tokens ∧
      (∀ name ∈ names.listed, ∃ t ∈ tokens, t.isIdentifier ∧ t.text = name) ∧
      (tokens = lex source → ∀ name ∈ names.listed,
        IsWord name ∧ name ∉ Word.keywords ∧ name ∉ Word.literals)) ∧
    (∀ opening closing index, matchingIndex? opening closing tokens index =
      some (ScriptEditor.matchingIndex? opening closing tokens index)) ∧
    (∀ index, skipBlanks? tokens index = some (skipBlanksFrom tokens index)) ∧
    ∀ names,
      (∀ index, style? names tokens index = some (styleAt? names tokens index)) ∧
      ∀ sheet, markup? sheet names tokens = some (Markup.ofTokens sheet names tokens) ∧
        room tokens ≤ (Markup.ofTokens sheet names tokens).byteLength * 2 := by
  have hstart : ∀ t ∈ tokens, source.isBoundary t.start := by
    intro t ht
    obtain ⟨kind, start, stop, hspan⟩ := h t ht
    exact isBoundary_of_ofSpan? hspan
  have hnames : names? source tokens = some (Names.ofTokens source tokens) := by
    rw [names?_eq, Names.ofTokens?_of_isBoundary hstart]
  refine ⟨⟨_, hnames, rfl, ?_, ?_⟩, ?_, ?_, ?_⟩
  · intro name hname
    exact exists_of_mem_listed hname
  · rintro rfl name hname
    obtain ⟨t, ht, hkind, rfl⟩ := exists_of_mem_listed hname
    exact isWord_of_mem_lex ht hkind
  · intro opening closing index
    exact matchingIndex?_eq opening closing tokens index
  · intro index
    exact skipBlanks?_eq tokens index
  · intro names
    refine ⟨style?_eq names tokens, ?_⟩
    intro sheet
    exact ⟨markup?_eq sheet names tokens, room_le sheet names tokens⟩

/-- Slices of a text out of order, some of them over others, and one of them empty. -/
def tangled : List Token :=
  [⟨.identifier, "x".toList, 0⟩, ⟨.operator, "(".toList, 5⟩, ⟨.identifier, "f(a".toList, 4⟩,
    ⟨.identifier, [], 3⟩, ⟨.operator, ")".toList, 7⟩, ⟨.identifier, "x".toList, 0⟩,
    ⟨.operator, "=".toList, 2⟩]

theorem names?_of_slices_tangled :
    (∀ t ∈ tangled, ∃ kind start stop,
      Token.ofSpan? kind "x = f(a)".toList start stop = some t) ∧
    (∃ names, names? "x = f(a)".toList tangled = some names ∧
      names = { assigned := ["x".toList], params := ["f(a".toList, []], functions := ["x".toList] }) ∧
    ∀ names, style? names tangled 8 = some none ∧
      ∃ m, markup? .standard names tangled = some m := by
  have hslices : ∀ t ∈ tangled,
      Token.ofSpan? t.kind "x = f(a)".toList t.start t.stop = some t := by decide
  have h : ∀ t ∈ tangled, ∃ kind start stop,
      Token.ofSpan? kind "x = f(a)".toList start stop = some t :=
    fun t ht => ⟨_, _, _, hslices t ht⟩
  obtain ⟨⟨names, hnames, heq, -, -⟩, -, -, hall⟩ := names?_of_slices "x = f(a)".toList tangled h
  refine ⟨h, ⟨names, hnames, ?_⟩, ?_⟩
  · rw [heq]
    decide +kernel
  · intro names
    exact ⟨(hall names).1 8, _, ((hall names).2 .standard).1⟩

end Seek

end

end ScriptEditor
