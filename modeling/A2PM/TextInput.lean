/-
A2PM/TextInput.lean

Texts as C reads them line by line and token by token: `fgets` and `strtok`.

A text is the list of its characters.  `fgets` stores at most one character
less than the size of its buffer, so a longer line comes in pieces; a text
made of lines that fit comes line by line (`lines_flatten`).
-/
import Mathlib.Data.List.TakeWhile
import Mathlib.Data.Nat.Notation

namespace TextInput

/-! ### Lines -/

/-- The characters up to and with the first newline, at most `room` of them,
and what follows. -/
def takeLine : ℕ → List Char → List Char × List Char
  | 0, text => ([], text)
  | _ + 1, [] => ([], [])
  | room + 1, c :: rest =>
      if c = '\n' then ([c], rest)
      else
        let (line, after) := takeLine room rest
        (c :: line, after)

/-- `fgets` with a buffer of `size` characters: what it stores, and what is
left to read. -/
def fgets (size : ℕ) (text : List Char) : Option (List Char × List Char) :=
  if text = [] then none else some (takeLine (size - 1) text)

theorem length_takeLine (room : ℕ) (text : List Char) :
    (takeLine room text).2.length ≤ text.length := by
  induction room generalizing text with
  | zero => exact Nat.le_refl _
  | succ room ih =>
      cases text with
      | nil => exact Nat.le_refl _
      | cons c rest =>
          rw [takeLine]
          split
          · exact Nat.le_succ _
          · exact Nat.le_trans (ih rest) (Nat.le_succ _)

/-- `fgets` reads something, if there is anything. -/
theorem length_fgets {size : ℕ} (hsize : 1 < size) {text line rest : List Char}
    (h : fgets size text = some (line, rest)) : rest.length < text.length := by
  obtain ⟨room, rfl⟩ : ∃ room, size = room + 2 := ⟨size - 2, by omega⟩
  cases text with
  | nil => cases h
  | cons c text =>
      obtain rfl : (takeLine (room + 1) (c :: text)).2 = rest :=
        congrArg Prod.snd (Option.some.inj h)
      rw [takeLine]
      split
      · exact Nat.lt_succ_self _
      · exact Nat.lt_succ_of_le (length_takeLine room text)

/-- What `while(fgets(...))` reads, one call after the other. -/
def lines (size : ℕ) (hsize : 1 < size) (text : List Char) : List (List Char) :=
  match _ : fgets size text with
  | none => []
  | some (line, rest) => line :: lines size hsize rest
termination_by text.length
decreasing_by exact length_fgets hsize ‹_›

/-- A line that ends with its newline and fits the buffer. -/
def WholeLine (size : ℕ) (line : List Char) : Prop :=
  ∃ body, line = body ++ ['\n'] ∧ '\n' ∉ body ∧ line.length < size

theorem takeLine_append {body : List Char} (hbody : '\n' ∉ body) {room : ℕ}
    (hroom : body.length < room) (rest : List Char) :
    takeLine room (body ++ '\n' :: rest) = (body ++ ['\n'], rest) := by
  induction body generalizing room with
  | nil =>
      cases room with
      | zero => cases hroom
      | succ room => rfl
  | cons c body ih =>
      cases room with
      | zero => cases hroom
      | succ room =>
          have hc : c ≠ '\n' := fun heq => hbody (heq ▸ List.mem_cons_self)
          have hrest := ih (fun hmem => hbody (List.mem_cons_of_mem _ hmem))
            (Nat.lt_of_succ_lt_succ hroom)
          rw [List.cons_append, takeLine, if_neg hc, hrest]
          rfl

theorem fgets_append {size : ℕ} {line : List Char} (h : WholeLine size line) (rest : List Char) :
    fgets size (line ++ rest) = some (line, rest) := by
  obtain ⟨body, rfl, hbody, hlength⟩ := h
  rw [List.length_append, List.length_singleton] at hlength
  rw [fgets, List.append_assoc, List.singleton_append, takeLine_append hbody (by omega)]
  exact if_neg (List.append_ne_nil_of_right_ne_nil _ (List.cons_ne_nil _ _))

/-- **Line by line.**  Lines that fit are read in turn, and then what follows. -/
theorem lines_flatten_append {size : ℕ} (hsize : 1 < size) {ls : List (List Char)}
    (h : ∀ line ∈ ls, WholeLine size line) (rest : List Char) :
    lines size hsize (ls.flatten ++ rest) = ls ++ lines size hsize rest := by
  induction ls with
  | nil => rfl
  | cons line ls ih =>
      obtain ⟨hline, hrest⟩ := List.forall_mem_cons.mp h
      rw [List.flatten_cons, List.append_assoc, lines]
      split
      next heq => cases heq.symm.trans (fgets_append hline _)
      next heq =>
          obtain ⟨rfl, rfl⟩ := Prod.mk.inj (Option.some.inj (heq.symm.trans (fgets_append hline _)))
          rw [ih hrest, List.cons_append]

theorem lines_nil {size : ℕ} (hsize : 1 < size) : lines size hsize [] = [] := by
  rw [lines]
  rfl

/-- A text made of lines that fit is read as these lines. -/
theorem lines_flatten {size : ℕ} (hsize : 1 < size) {ls : List (List Char)}
    (h : ∀ line ∈ ls, WholeLine size line) : lines size hsize ls.flatten = ls := by
  have happend := lines_flatten_append hsize h []
  rwa [List.append_nil, lines_nil, List.append_nil] at happend

theorem takeLine_last {text : List Char} (htext : '\n' ∉ text) {room : ℕ}
    (hroom : text.length ≤ room) : takeLine room text = (text, []) := by
  induction text generalizing room with
  | nil => cases room <;> rfl
  | cons c text ih =>
      cases room with
      | zero => cases hroom
      | succ room =>
          have hc : c ≠ '\n' := fun heq => htext (heq ▸ List.mem_cons_self)
          have hrest := ih (fun hmem => htext (List.mem_cons_of_mem _ hmem))
            (Nat.le_of_succ_le_succ hroom)
          rw [takeLine, if_neg hc, hrest]

/-- A last line without its newline is read, too. -/
theorem lines_last {size : ℕ} (hsize : 1 < size) {text : List Char} (hne : text ≠ [])
    (htext : '\n' ∉ text) (hlength : text.length < size) : lines size hsize text = [text] := by
  have hfgets : fgets size text = some (text, []) := by
    rw [fgets, if_neg hne, takeLine_last htext (by omega)]
  rw [lines]
  split
  next heq => cases heq.symm.trans hfgets
  next heq =>
      obtain ⟨rfl, rfl⟩ := Prod.mk.inj (Option.some.inj (heq.symm.trans hfgets))
      rw [lines_nil]

/-! ### Tokens -/

/-- The string in a buffer: the characters before the first null character. -/
def cString (text : List Char) : List Char := text.takeWhile fun c => c ≠ Char.ofNat 0

/-- `strtok` on the string `s`: the first token, and the string where the next
call goes on; `none` is `NULL`. -/
def strtok (delimiters : String) (s : List Char) : Option (List Char × List Char) :=
  let isDelimiter (c : Char) : Bool := delimiters.toList.contains c
  let s := s.dropWhile isDelimiter
  if s = [] then none
  else
    some (s.takeWhile fun c => !isDelimiter c, (s.dropWhile fun c => !isDelimiter c).drop 1)

theorem dropWhile_none {p : Char → Bool} {text : List Char} (h : ∀ c ∈ text.head?, p c = false) :
    text.dropWhile p = text := by
  cases text with
  | nil => rfl
  | cons c rest =>
      apply List.dropWhile_cons_of_neg
      rw [h c rfl]
      exact Bool.false_ne_true

/-- A word in front of a delimiter is the first token. -/
theorem strtok_word {delimiters : String} {word : List Char} (hne : word ≠ [])
    (hword : ∀ c ∈ word, delimiters.toList.contains c = false) {d : Char}
    (hd : delimiters.toList.contains d = true) (rest : List Char) :
    strtok delimiters (word ++ d :: rest) = some (word, rest) := by
  have hskip : (word ++ d :: rest).dropWhile (fun c => delimiters.toList.contains c) =
      word ++ d :: rest := by
    apply dropWhile_none
    intro c hc
    obtain ⟨c', word', rfl⟩ := List.exists_cons_of_ne_nil hne
    obtain rfl := Option.some.inj hc
    exact hword _ List.mem_cons_self
  have hpos : ∀ c ∈ word, (!delimiters.toList.contains c) = true := by
    intro c hc
    rw [hword c hc]
    rfl
  have hneg : ¬ (!delimiters.toList.contains d) = true := by
    rw [hd]
    exact Bool.false_ne_true
  have htake : (d :: rest).takeWhile (fun c => !delimiters.toList.contains c) = [] :=
    List.takeWhile_cons_of_neg hneg
  have hdrop : (d :: rest).dropWhile (fun c => !delimiters.toList.contains c) = d :: rest :=
    List.dropWhile_cons_of_neg hneg
  simp only [strtok, hskip]
  rw [if_neg (List.append_ne_nil_of_left_ne_nil hne _), List.takeWhile_append_of_pos hpos,
    List.dropWhile_append_of_pos hpos, htake, hdrop, List.append_nil]
  rfl

/-- Without a delimiter the whole string is the token. -/
theorem strtok_last {delimiters : String} {word : List Char} (hne : word ≠ [])
    (hword : ∀ c ∈ word, delimiters.toList.contains c = false) :
    strtok delimiters word = some (word, []) := by
  have hskip : word.dropWhile (fun c => delimiters.toList.contains c) = word :=
    dropWhile_none fun c hc => hword c (List.mem_of_mem_head? hc)
  have hpos : ∀ c ∈ word, (!delimiters.toList.contains c) = true := by
    intro c hc
    rw [hword c hc]
    rfl
  simp only [strtok, hskip]
  rw [if_neg hne, List.takeWhile_eq_self_iff.mpr hpos, List.dropWhile_eq_nil_iff.mpr hpos]
  rfl

theorem cString_eq {text : List Char} (h : Char.ofNat 0 ∉ text) : cString text = text := by
  apply List.takeWhile_eq_self_iff.mpr
  intro c hc
  exact decide_eq_true fun heq => h (heq ▸ hc)

/-- Null characters behind a string end it. -/
theorem cString_padded {text : List Char} (h : Char.ofNat 0 ∉ text) (k : ℕ) :
    cString (text ++ List.replicate k (Char.ofNat 0)) = text := by
  have hpos : ∀ c ∈ text, decide (c ≠ Char.ofNat 0) = true := fun c hc =>
    decide_eq_true fun heq => h (heq ▸ hc)
  rw [cString, List.takeWhile_append_of_pos hpos]
  cases k with
  | zero => exact List.append_nil text
  | succ k =>
      rw [List.replicate_succ, List.takeWhile_cons_of_neg (by simp), List.append_nil]

/-! ### Substrings -/

/-- `strstr`: the string from the first occurrence of a pattern on; `none` is
`NULL`. -/
def strstr (pattern : List Char) : List Char → Option (List Char)
  | [] => if pattern = [] then some [] else none
  | c :: s => if pattern <+: c :: s then some (c :: s) else strstr pattern s

/-- Text without the first character of the pattern is skipped. -/
theorem strstr_skip {c : Char} {u : List Char} (hu : c ∉ u) (pattern v : List Char) :
    strstr (c :: pattern) (u ++ v) = strstr (c :: pattern) v := by
  induction u with
  | nil => rfl
  | cons d u ih =>
      rw [List.mem_cons, not_or] at hu
      rw [List.cons_append, strstr, ih hu.2]
      exact if_neg fun h => hu.1 (List.cons_prefix_cons.mp h).1

/-- What stands before a delimiter. -/
theorem takeWhile_delimiter {d : Char} {word : List Char} (hword : d ∉ word)
    (rest : List Char) : (word ++ d :: rest).takeWhile (fun c => c ≠ d) = word := by
  rw [List.takeWhile_append_of_pos, List.takeWhile_cons_of_neg (by simp), List.append_nil]
  exact fun c hc => decide_eq_true fun heq => hword (heq ▸ hc)

theorem prefix_delimiter_iff {d : Char} {word s : List Char} (hword : d ∉ word) (hs : d ∉ s)
    (rest : List Char) : word ++ [d] <+: s ++ d :: rest ↔ word = s := by
  constructor
  · rintro ⟨rest', heq⟩
    have htake := congrArg (List.takeWhile fun c => c ≠ d) heq
    rwa [List.append_assoc, List.singleton_append, takeWhile_delimiter hword,
      takeWhile_delimiter hs] at htake
  · rintro rfl
    exact ⟨rest, List.append_assoc word [d] rest⟩

/-- A word that ends with a delimiter occurs where the text before the first
delimiter ends in it. -/
theorem strstr_word {d : Char} {word s : List Char} (hne : word ≠ []) (hword : d ∉ word)
    (hs : d ∉ s) (rest : List Char) :
    strstr (word ++ [d]) (s ++ d :: rest) =
      if word <:+ s then some (word ++ d :: rest) else strstr (word ++ [d]) (d :: rest) := by
  induction s with
  | nil => exact (if_neg fun h => hne (List.suffix_nil.mp h)).symm
  | cons c s ih =>
      have hrest := ih fun h => hs (List.mem_cons_of_mem c h)
      have hstarts : word ++ [d] <+: c :: (s ++ d :: rest) ↔ word = c :: s :=
        prefix_delimiter_iff hword hs rest
      rw [List.cons_append, strstr, hrest]
      by_cases heq : word = c :: s
      · rw [if_pos (hstarts.mpr heq), if_pos (heq ▸ List.suffix_rfl), heq]
        rfl
      · rw [if_neg (mt hstarts.mp heq)]
        by_cases hends : word <:+ s
        · rw [if_pos hends, if_pos (List.suffix_cons_iff.mpr (.inr hends))]
        · rw [if_neg hends, if_neg fun h => (List.suffix_cons_iff.mp h).elim heq hends]

/-! ### Strings of delimiters -/

/-- All characters are delimiters. -/
def OnlyDelimiters (delimiters : String) (s : List Char) : Prop :=
  ∀ c ∈ s, delimiters.toList.contains c = true

theorem OnlyDelimiters.append {delimiters : String} {a b : List Char}
    (ha : OnlyDelimiters delimiters a) (hb : OnlyDelimiters delimiters b) :
    OnlyDelimiters delimiters (a ++ b) := List.forall_mem_append.mpr ⟨ha, hb⟩

/-- Without any other character there is no token. -/
theorem strtok_eq_none_iff {delimiters : String} {s : List Char} :
    strtok delimiters s = none ↔ OnlyDelimiters delimiters s := by
  simp only [strtok]
  split
  next hnil => exact iff_of_true rfl (List.dropWhile_eq_nil_iff.mp hnil)
  next hne =>
      refine iff_of_false (Option.some_ne_none _) fun honly => ?_
      exact hne (List.dropWhile_eq_nil_iff.mpr honly)

/-- Delimiters in front of a word are skipped. -/
theorem strtok_skip {delimiters : String} {a : List Char} (ha : OnlyDelimiters delimiters a)
    (s : List Char) : strtok delimiters (a ++ s) = strtok delimiters s := by
  have hskip : (a ++ s).dropWhile (fun c => delimiters.toList.contains c) =
      s.dropWhile fun c => delimiters.toList.contains c := List.dropWhile_append_of_pos ha
  simp only [strtok, hskip]

/-- Where a token comes from: delimiters, the token, and what begins with the
delimiter behind it. -/
theorem strtok_eq_some {delimiters : String} {s word rest : List Char}
    (h : strtok delimiters s = some (word, rest)) :
    ∃ a b, OnlyDelimiters delimiters a ∧ s = a ++ word ++ b ∧ b.drop 1 = rest ∧
      OnlyDelimiters delimiters (b.take 1) := by
  simp only [strtok, Option.ite_none_left_eq_some, Option.some.injEq, Prod.mk.injEq] at h
  obtain ⟨-, rfl, rfl⟩ := h
  refine ⟨s.takeWhile fun c => delimiters.toList.contains c, _, fun c hc => ?_, ?_, rfl, ?_⟩
  · exact List.mem_takeWhile_imp hc
  · rw [List.append_assoc, List.takeWhile_append_dropWhile, List.takeWhile_append_dropWhile]
  · intro c hc
    generalize hb : (s.dropWhile fun c => delimiters.toList.contains c).dropWhile
      (fun c => !delimiters.toList.contains c) = b at hc
    cases b with
    | nil => cases hc
    | cons d b =>
        obtain rfl := List.mem_singleton.mp hc
        have hhead := List.head?_dropWhile_not (fun c => !delimiters.toList.contains c)
          (s.dropWhile fun c => delimiters.toList.contains c)
        rw [hb] at hhead
        simpa using hhead

/-- The word is the only token iff there are only delimiters around it. -/
theorem strtok_only_iff {delimiters : String} {s word : List Char} (hne : word ≠ [])
    (hword : ∀ c ∈ word, delimiters.toList.contains c = false) :
    (∃ rest, strtok delimiters s = some (word, rest) ∧ strtok delimiters rest = none) ↔
      ∃ a b, OnlyDelimiters delimiters a ∧ OnlyDelimiters delimiters b ∧ s = a ++ word ++ b := by
  constructor
  · rintro ⟨rest, hs, hrest⟩
    obtain ⟨a, b, ha, htext, rfl, hb⟩ := strtok_eq_some hs
    refine ⟨a, b, ha, ?_, htext⟩
    rw [← List.take_append_drop 1 b]
    exact hb.append (strtok_eq_none_iff.mp hrest)
  · rintro ⟨a, b, ha, hb, rfl⟩
    rw [List.append_assoc, strtok_skip ha]
    cases b with
    | nil =>
        rw [List.append_nil, strtok_last hne hword]
        exact ⟨[], rfl, rfl⟩
    | cons d b =>
        obtain ⟨hd, hrest⟩ := List.forall_mem_cons.mp hb
        exact ⟨b, strtok_word hne hword hd b, strtok_eq_none_iff.mpr hrest⟩

end TextInput
