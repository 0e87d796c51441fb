/-
A2PM/ShellText.lean

The text tools of a shell script: `head`, `tail`, `grep` and `sed` on the lines
of a file, what `$(...)` makes of their output, and the words of an unquoted
expansion.

A file is the list of its lines, without the newlines.  `afterLast` is behind
`sed -e 's/.*p//'`: the match is greedy, so what is left is what follows the
last occurrence of `p`.  Two rules find it: text in front of an occurrence does
not matter (`afterLast_append`), and neither does text without the first
character of the pattern (`afterLast_skip`).
-/
import A2PM.DelimitedText
import A2PM.TextInput
import Mathlib.Data.List.DropRight
import Mathlib.Data.List.Infix

namespace ShellText

open DelimitedText

/-! ### Lines -/

/-- The text of these lines. -/
def ofLines (lines : List (List Char)) : List Char := (lines.map (· ++ ['\n'])).flatten

def textLines (text : List Char) : List (List Char) :=
  (readlines text).map fun line => line.takeWhile fun c => c ≠ '\n'

/-- The first line of a text. -/
theorem textLines_append {line : List Char} (h : '\n' ∉ line) (rest : List Char) :
    textLines (line ++ '\n' :: rest) = line :: textLines rest := by
  rw [textLines, readlines_append h, List.map_cons, TextInput.takeWhile_delimiter h]
  rfl

theorem textLines_ofLines {lines : List (List Char)} (h : ∀ line ∈ lines, '\n' ∉ line) :
    textLines (ofLines lines) = lines := by
  induction lines with
  | nil => rfl
  | cons line lines ih =>
      obtain ⟨hline, hlines⟩ := List.forall_mem_cons.mp h
      show textLines ((line ++ ['\n']) ++ ofLines lines) = _
      rw [List.append_assoc, List.singleton_append, textLines_append hline, ih hlines]

/-! ### The tools -/

/-- `head -n` -/
def head (n : ℕ) (lines : List (List Char)) : List (List Char) := lines.take n

/-- `tail -n` -/
def tail (n : ℕ) (lines : List (List Char)) : List (List Char) := lines.drop (lines.length - n)

/-- `tail -n +` -/
def tailFrom (n : ℕ) (lines : List (List Char)) : List (List Char) := lines.drop (n - 1)

/-- `grep`, for a pattern without special characters. -/
def grep (pattern : String) (lines : List (List Char)) : List (List Char) :=
  lines.filter fun line => line.tails.any pattern.toList.isPrefixOf

/-- What follows the last occurrence of a pattern. -/
def afterLast (pattern : List Char) : List Char → Option (List Char)
  | [] => none
  | c :: rest =>
      match afterLast pattern rest with
      | some after => some after
      | none =>
          if pattern <+: c :: rest then some ((c :: rest).drop pattern.length) else none

/-- `sed -e 's/.*pattern//'` on a line. -/
def deleteThrough (pattern : String) (line : List Char) : List Char :=
  (afterLast pattern.toList line).getD line

/-- `sed 's/c/by/g'` for a character, and `${...//c/by}`. -/
def replaceAll (c : Char) (new : List Char) (text : List Char) : List Char :=
  text.flatMap fun d => if d = c then new else [d]

/-- `$(...)`: the output without the newlines at its end. -/
def captured (lines : List (List Char)) : List Char :=
  (['\n'].intercalate lines).rdropWhile fun c => c = '\n'

/-- The characters of `IFS`. -/
def isSeparator (c : Char) : Bool := c = ' ' || c = '\t' || c = '\n'

/-- The words of an expansion without quotes. -/
def words (text : List Char) : List (List Char) :=
  (text.splitOnP isSeparator).filter fun word => word ≠ []

/-- `echo`, with arguments that come from an expansion without quotes. -/
def echo (text : List Char) : List Char := [' '].intercalate (words text)

/-! ### Words -/

theorem captured_singleton {line : List Char} (h : '\n' ∉ line) : captured [line] = line := by
  rw [captured, List.intercalate_singleton, List.rdropWhile_eq_self_iff]
  intro hne heq
  exact h (of_decide_eq_true heq ▸ List.getLast_mem hne)

theorem words_singleton {word : List Char} (hne : word ≠ [])
    (h : ∀ c ∈ word, isSeparator c = false) : words word = [word] := by
  rw [words, List.splitOnP_eq_singleton h]
  exact List.filter_cons_of_pos (decide_eq_true hne)

/-- A separator ends a word. -/
theorem words_append {word : List Char} (hne : word ≠ [])
    (h : ∀ c ∈ word, isSeparator c = false) {c : Char} (hc : isSeparator c = true)
    (rest : List Char) : words (word ++ c :: rest) = word :: words rest := by
  rw [words, List.splitOnP_append_cons_of_forall_mem h c hc]
  exact List.filter_cons_of_pos (decide_eq_true hne)

theorem echo_singleton {word : List Char} (hne : word ≠ [])
    (h : ∀ c ∈ word, isSeparator c = false) : echo word = word := by
  rw [echo, words_singleton hne h, List.intercalate_singleton]

/-- A text that may stand as a word. -/
def IsWord (word : List Char) : Prop := word ≠ [] ∧ ∀ c ∈ word, isSeparator c = false

theorem words_intercalate {texts : List (List Char)} (h : ∀ text ∈ texts, IsWord text) :
    words ([' '].intercalate texts) = texts := by
  induction texts with
  | nil => rfl
  | cons text texts ih =>
      obtain ⟨⟨hne, hword⟩, hrest⟩ := List.forall_mem_cons.mp h
      cases texts with
      | nil =>
          rw [List.intercalate_singleton]
          exact words_singleton hne hword
      | cons text' texts =>
          rw [List.intercalate_cons_cons, List.append_assoc, List.singleton_append,
            words_append hne hword rfl, ih hrest]

/-! ### `grep` and `sed` -/

/-- A line matches if it has the pattern somewhere. -/
theorem matches_iff {pattern line : List Char} :
    line.tails.any pattern.isPrefixOf = true ↔ pattern <:+: line := by
  rw [List.any_eq_true, List.infix_iff_prefix_suffix]
  constructor
  · rintro ⟨rest, hrest, hprefix⟩
    exact ⟨rest, List.isPrefixOf_iff_prefix.mp hprefix, (List.mem_tails _ _).mp hrest⟩
  · rintro ⟨rest, hprefix, hrest⟩
    exact ⟨rest, (List.mem_tails _ _).mpr hrest, List.isPrefixOf_iff_prefix.mpr hprefix⟩

variable {pattern u v after : List Char} {c : Char}

theorem afterLast_append (h : afterLast pattern v = some after) (u : List Char) :
    afterLast pattern (u ++ v) = some after := by
  induction u with
  | nil => exact h
  | cons d u ih => rw [List.cons_append, afterLast, ih]

/-- An occurrence starts with the first character of the pattern. -/
theorem afterLast_skip (hu : c ∉ u) (v : List Char) :
    afterLast (c :: pattern) (u ++ v) = afterLast (c :: pattern) v := by
  induction u with
  | nil => rfl
  | cons d u ih =>
      have hd : c ≠ d := fun heq => hu (heq ▸ List.mem_cons_self)
      have hno : ¬ c :: pattern <+: d :: (u ++ v) := fun hprefix =>
        hd (List.cons_prefix_cons.mp hprefix).1
      rw [List.cons_append, afterLast, ih fun hmem => hu (List.mem_cons_of_mem _ hmem)]
      cases hv : afterLast (c :: pattern) v with
      | some after => rfl
      | none => exact if_neg hno

theorem afterLast_eq_none (hv : c ∉ v) : afterLast (c :: pattern) v = none := by
  have h : afterLast (c :: pattern) (v ++ []) = none := afterLast_skip hv []
  rwa [List.append_nil] at h

/-- An occurrence with none behind it. -/
theorem afterLast_prefix (hne : pattern ≠ []) (h : afterLast pattern (pattern.tail ++ v) = none) :
    afterLast pattern (pattern ++ v) = some v := by
  obtain ⟨c, rest, rfl⟩ := List.exists_cons_of_ne_nil hne
  rw [List.tail_cons] at h
  rw [List.cons_append, afterLast, h]
  show (if c :: rest <+: (c :: rest) ++ v then _ else _) = _
  rw [if_pos (List.prefix_append _ _)]
  exact congrArg some List.drop_left

/-- The value of an assignment. -/
theorem deleteThrough_assignment (name : List Char) {value : List Char} (h : '=' ∉ value) :
    deleteThrough "=" (name ++ '=' :: value) = value := by
  have hpattern : "=".toList = ['='] := by decide
  have hlast : afterLast ['='] (['='] ++ value) = some value :=
    afterLast_prefix (List.cons_ne_nil _ _) (afterLast_eq_none h)
  rw [deleteThrough, hpattern]
  exact congrArg (Option.getD · _) (afterLast_append hlast name)

theorem grep_of_infix {pattern : String} {line : List Char} (h : pattern.toList <:+: line)
    (lines : List (List Char)) : grep pattern (line :: lines) = line :: grep pattern lines :=
  List.filter_cons_of_pos (matches_iff.mpr h)

theorem grep_of_not_mem {pattern : String} (hc : c ∈ pattern.toList) {line : List Char}
    (hline : c ∉ line) (lines : List (List Char)) :
    grep pattern (line :: lines) = grep pattern lines := by
  apply List.filter_cons_of_neg
  rw [matches_iff]
  exact fun h => hline (h.subset hc)

theorem grep_append (pattern : String) (l l' : List (List Char)) :
    grep pattern (l ++ l') = grep pattern l ++ grep pattern l' := List.filter_append ..

theorem replaceAll_append (c : Char) (new u v : List Char) :
    replaceAll c new (u ++ v) = replaceAll c new u ++ replaceAll c new v := List.flatMap_append

theorem replaceAll_of_not_mem {text : List Char} (h : c ∉ text) (new : List Char) :
    replaceAll c new text = text := by
  induction text with
  | nil => rfl
  | cons d text ih =>
      have hd : d ≠ c := fun heq => h (heq ▸ List.mem_cons_self)
      rw [replaceAll, List.flatMap_cons, if_neg hd]
      exact congrArg (d :: ·) (ih fun hmem => h (List.mem_cons_of_mem _ hmem))

theorem mem_replaceAll {new text : List Char} {d : Char} (h : d ∈ replaceAll c new text) :
    d ∈ new ∨ d ∈ text := by
  obtain ⟨e, he, hd⟩ := List.mem_flatMap.mp h
  by_cases hc : e = c
  · rw [if_pos hc] at hd
    exact .inl hd
  · rw [if_neg hc] at hd
    exact .inr (List.mem_singleton.mp hd ▸ he)

end ShellText
