/-
A2PM/MemInfo.lean

The memory part of `get_features` in `controller/client.c`: two `sscanf` read
the text of `/proc/meminfo`, one from its start and one from the first
`SwapTotal:` on.

A format with names in it reads the lines as long as they have these names in
turn (`scan_lines`).  A line between two of them leaves all that follows unread,
and the variables keep what the stack held (`reports_iff`).
-/
import A2PM.FeaturesText
import A2PM.Numerals
import A2PM.TextInput
import Mathlib.Data.List.Count

namespace A2PM.MemInfo

open FormattedText TextInput FeaturesText

/-! ### `get_features` -/

/-- `BUFSIZE`. -/
abbrev bufSize : ℕ := 4096

/-- The loop over `fgetc`; in a `char`, 255 is `EOF`. -/
def readFile (content : List Char) : List Char := content.takeWhile fun c => c ≠ Char.ofNat 255

/-- `aux_buffer`: what is read, with the zeros of `bzero` behind it. -/
def auxBuffer (content : List Char) : List Char :=
  readFile content ++ List.replicate (bufSize - (readFile content).length) (Char.ofNat 0)

/-- The variable for the `i`-th conversion, an `int`, keeps what it held if the
scan ends before. -/
def stored (values : List Value) (i : ℕ) (held : ℤ) : ℤ :=
  match values[i]? with
  | some (.int z) => storedInt z
  | _ => held

def memFormat : String := "MemTotal: %d kB MemFree: %d kB Buffers: %d kB Cached: %d kB"

def swapFormat : String := "SwapTotal: %d kB SwapFree: %d kB"

/-- The memory variables after the two `sscanf` and the assignments, when they
held the values of `v` before. -/
def assigned (mem swap : List Value) (v : SystemFeatures) : SystemFeatures :=
  { v with
    memTotal := stored mem 0 v.memTotal
    memFree := stored mem 1 v.memFree
    memBuffers := stored mem 2 v.memBuffers
    memCached := stored mem 3 v.memCached
    memUsed := stored mem 0 v.memTotal - stored mem 1 v.memFree
    memShared := 0
    swapTotal := stored swap 0 v.swapTotal
    swapFree := stored swap 1 v.swapFree
    swapUsed := stored swap 0 v.swapTotal - stored swap 1 v.swapFree }

/-- The memory part of `get_features`; without a `SwapTotal:`, `sscanf` gets
`NULL`. -/
def readMemory (content : List Char) (v : SystemFeatures) : Option SystemFeatures :=
  let text := cString (auxBuffer content)
  (strstr "SwapTotal:".toList text).map fun pointerBuffer =>
    assigned (sscanf text memFormat) (sscanf pointerBuffer swapFormat) v

/-! ### The file -/

/-- A character of a name: no white space, colon, null character or `EOF`. -/
def NameChar (c : Char) : Prop :=
  c.isWhitespace = false ∧ c ≠ ':' ∧ c ≠ Char.ofNat 0 ∧ c ≠ Char.ofNat 255

/-- A line of `/proc/meminfo`. -/
structure Line where
  name : List Char
  gap : List Char
  value : ℕ
  isName : ∀ c ∈ name, NameChar c
  isGap : ∀ c ∈ gap, c = ' '
  isInt : value < 2 ^ 31

def Line.text (l : Line) : List Char :=
  l.name ++ ':' :: (l.gap ++ (printInt l.value ++ [' ', 'k', 'B', '\n']))

/-- The text of these lines. -/
def content (lines : List Line) : List Char := lines.flatMap Line.text

/-- The names of the memory figures. -/
def memNames : List (List Char) :=
  ["MemTotal".toList, "MemFree".toList, "Buffers".toList, "Cached".toList]

/-- The names of the swap figures. -/
def swapNames : List (List Char) := ["SwapTotal".toList, "SwapFree".toList]

/-- A text of `/proc/meminfo` that has the figures, each once and in this
order. -/
structure File where
  lines : List Line
  ordered : (memNames ++ swapNames).Sublist (lines.map Line.name)
  once : ∀ name ∈ memNames ++ swapNames, (lines.map Line.name).count name = 1
  short : (content lines).length < bufSize

namespace File

/-- The value given by a name. -/
def value (file : File) (name : List Char) : ℤ :=
  ((file.lines.find? fun l => l.name = name).map Line.value).getD 0

/-- The features with the figures of the file. -/
def figures (file : File) (v : SystemFeatures) : SystemFeatures :=
  { v with
    memTotal := file.value "MemTotal".toList
    memFree := file.value "MemFree".toList
    memBuffers := file.value "Buffers".toList
    memCached := file.value "Cached".toList
    memUsed := file.value "MemTotal".toList - file.value "MemFree".toList
    memShared := 0
    swapTotal := file.value "SwapTotal".toList
    swapFree := file.value "SwapFree".toList
    swapUsed := file.value "SwapTotal".toList - file.value "SwapFree".toList }

/-- What `get_features` prints has the figures of the file, whatever the
variables held. -/
def Reports (file : File) : Prop :=
  ∀ v, (readMemory (content file.lines) v).bind getFeatures = getFeatures (file.figures v)

end File

/-! ### Reading lines -/

/-- The values of the lines, as long as they have these names. -/
def commonValues : List (List Char) → List Line → List Value
  | name :: names, l :: lines =>
      if name = l.name then .int l.value :: commonValues names lines else []
  | _, _ => []

/-- The directives for a line with this name, behind white space. -/
def lineFormat (name : List Char) (format : List Directive) : List Directive :=
  .literal ' ' :: ((name ++ [':']).map .literal ++
    .literal ' ' :: .int :: .literal ' ' :: (['k', 'B'].map .literal ++ format))

def namesFormat (names : List (List Char)) : List Directive := names.foldr lineFormat []

theorem directives_memFormat :
    .literal ' ' :: directives memFormat.toList = namesFormat memNames := by decide +kernel

theorem directives_swapFormat :
    .literal ' ' :: directives swapFormat.toList = namesFormat swapNames := by decide +kernel

section Scan

variable {name : List Char} {names : List (List Char)} {lines : List Line}

/-- The names of a format are names of lines. -/
def AllNames (names : List (List Char)) : Prop := ∀ name ∈ names, ∀ c ∈ name, NameChar c

theorem NameChar.colon_not_mem (h : ∀ c ∈ name, NameChar c) : ':' ∉ name := fun hmem =>
  (h ':' hmem).2.1 rfl

theorem not_isWhitespace_name (h : ∀ c ∈ name, NameChar c) :
    ∀ c ∈ name ++ [':'], c.isWhitespace = false := by
  intro c hc
  rcases List.mem_append.mp hc with hmem | hmem
  · exact (h c hmem).1
  · rw [List.mem_singleton.mp hmem]
    rfl

theorem head_text (l : Line) (rest : List Char) :
    ∀ c ∈ (l.text ++ rest).head?, c.isWhitespace = false := by
  intro c hc
  rw [Line.text, List.append_assoc] at hc
  cases hname : l.name with
  | nil =>
      rw [hname] at hc
      obtain rfl := Option.some.inj hc
      rfl
  | cons d name =>
      rw [hname] at hc
      obtain rfl := Option.some.inj hc
      exact (l.isName d (hname ▸ List.mem_cons_self)).1

/-- White space before lines is skipped. -/
theorem skipSpace_lines {gap : List Char} (hgap : Blank gap) (lines : List Line) :
    skipSpace (gap ++ content lines) = content lines := by
  apply skipSpace_append hgap
  cases lines with
  | nil => exact fun c hc => absurd hc (by simp [content])
  | cons l lines => exact head_text l (content lines)

/-- The value behind the colon. -/
theorem scan_value (l : Line) (format : List Directive) (rest : List Char) :
    scan (.literal ' ' :: .int :: .literal ' ' :: (['k', 'B'].map .literal ++ format))
        (l.gap ++ (printInt l.value ++ ' ' :: 'k' :: 'B' :: rest)) =
      .int l.value :: scan format rest := by
  have hgap : Blank l.gap := fun c hc => by rw [l.isGap c hc]; rfl
  have hends : Ends (' ' :: 'k' :: 'B' :: rest) := fun c hc => by
    obtain rfl := Option.some.inj hc
    rfl
  have hdigits : ∀ c ∈ (printInt l.value ++ ' ' :: 'k' :: 'B' :: rest).head?,
      c.isWhitespace = false := by
    obtain ⟨d, ds, hds, hd⟩ := toDigits_append l.value (' ' :: 'k' :: 'B' :: rest)
    have hprint : printInt l.value = Nat.toDigits 10 l.value := rfl
    intro c hc
    rw [hprint, hds] at hc
    obtain rfl := Option.some.inj hc
    exact not_isWhitespace_of_isDigit hd
  have hunit : skipSpace (' ' :: 'k' :: 'B' :: rest) = 'k' :: 'B' :: rest := rfl
  have hletters : ∀ c ∈ ['k', 'B'], c.isWhitespace = false := by
    rw [List.forall_mem_cons, List.forall_mem_singleton]
    exact ⟨rfl, rfl⟩
  have hkb : ['k', 'B'] <+: 'k' :: 'B' :: rest := ⟨rest, rfl⟩
  rw [scan_space rfl, skipSpace_append hgap hdigits, scan, scanInt_printInt _ hends]
  show Value.int l.value :: scan _ _ = _
  rw [scan_space rfl, hunit, scan_literals hletters, if_pos hkb]
  rfl

/-- A line is read if it has the name of the format; else the scan ends. -/
theorem scan_line (hname : ∀ c ∈ name, NameChar c) {gap : List Char} (hgap : Blank gap)
    (format : List Directive) (l : Line) (lines : List Line) :
    scan (lineFormat name format) (gap ++ content (l :: lines)) =
      if name = l.name then .int l.value :: scan format ('\n' :: content lines) else [] := by
  have htext : content (l :: lines) = l.name ++ ':' ::
      (l.gap ++ (printInt l.value ++ ' ' :: 'k' :: 'B' :: '\n' :: content lines)) := by
    simp [content, Line.text]
  rw [lineFormat, scan_space rfl, skipSpace_lines hgap, scan_literals (not_isWhitespace_name hname),
    htext]
  simp only [prefix_delimiter_iff (NameChar.colon_not_mem hname)
    (NameChar.colon_not_mem l.isName)]
  by_cases heq : name = l.name
  · have hdrop (rest : List Char) : (l.name ++ ':' :: rest).drop (name ++ [':']).length = rest := by
      rw [heq, List.append_cons l.name ':' rest, List.drop_left]
    rw [if_pos heq, if_pos heq, hdrop, scan_value]
  · rw [if_neg heq, if_neg heq]

/-- **A format with names.**  It reads the values of the lines up to the first
that has another name. -/
theorem scan_lines (hnames : AllNames names) {gap : List Char} (hgap : Blank gap) :
    scan (namesFormat names) (gap ++ content lines) = commonValues names lines := by
  induction names generalizing lines gap with
  | nil => rfl
  | cons name names ih =>
      obtain ⟨hname, hrest⟩ := List.forall_mem_cons.mp hnames
      cases lines with
      | nil =>
          have hempty : skipSpace (gap ++ []) = [] := skipSpace_lines hgap []
          have hnil : ¬ name ++ [':'] <+: [] := fun h =>
            List.append_ne_nil_of_right_ne_nil _ (List.cons_ne_nil _ _) (List.prefix_nil.mp h)
          show scan (lineFormat name (namesFormat names)) (gap ++ []) = []
          rw [lineFormat, scan_space rfl, hempty, scan_literals (not_isWhitespace_name hname),
            if_neg hnil]
      | cons l lines =>
          have hline : scan (namesFormat names) (['\n'] ++ content lines) =
              commonValues names lines := ih hrest (blank_singleton rfl)
          show scan (lineFormat name (namesFormat names)) _ = if _ then _ else _
          rw [scan_line hname hgap, ← hline]
          rfl

/-- A scan that reads all values has met all names. -/
theorem prefix_of_length (h : names.length ≤ (commonValues names lines).length) :
    names <+: lines.map Line.name := by
  induction names generalizing lines with
  | nil => exact List.nil_prefix
  | cons name names ih =>
      cases lines with
      | nil => exact absurd h (Nat.not_succ_le_zero _)
      | cons l lines =>
          rw [commonValues] at h
          split at h
          next heq =>
            have hrest := ih (Nat.le_of_succ_le_succ h)
            rw [List.map_cons, heq]
            exact List.cons_prefix_cons.mpr ⟨rfl, hrest⟩
          next => exact absurd h (Nat.not_succ_le_zero _)

theorem commonValues_eq {value : List Char → ℤ} (h : names <+: lines.map Line.name)
    (hvalue : ∀ l ∈ lines, l.name ∈ names → value l.name = l.value) :
    commonValues names lines = names.map fun name => .int (value name) := by
  induction names generalizing lines with
  | nil => cases lines <;> rfl
  | cons name names ih =>
      cases lines with
      | nil => exact absurd (List.prefix_nil.mp h) (List.cons_ne_nil _ _)
      | cons l lines =>
          obtain ⟨heq, hrest⟩ := List.cons_prefix_cons.mp h
          obtain ⟨hl, hlines⟩ := List.forall_mem_cons.mp hvalue
          rw [commonValues, if_pos heq, ih hrest fun l' hl' hmem =>
            hlines l' hl' (List.mem_cons_of_mem _ hmem), List.map_cons, heq,
            hl (heq ▸ List.mem_cons_self)]

end Scan

/-! ### The text in the buffer -/

instance : DecidablePred NameChar := fun _ => inferInstanceAs (Decidable (_ ∧ _ ∧ _ ∧ _))

theorem allNames : AllNames (memNames ++ swapNames) := by
  have hall : ((memNames ++ swapNames).all fun name => name.all fun c => decide (NameChar c)) =
      true := by decide +kernel
  intro name hname c hc
  exact of_decide_eq_true (List.all_eq_true.mp (List.all_eq_true.mp hall name hname) c hc)

theorem ne_of_mem_text {l : Line} {c : Char} (h : c ∈ l.text) :
    c ≠ Char.ofNat 0 ∧ c ≠ Char.ofNat 255 := by
  rw [Line.text, List.mem_append, List.mem_cons, List.mem_append, List.mem_append] at h
  rcases h with hname | rfl | hgap | hdigit | hunit
  · exact (l.isName c hname).2.2
  · decide
  · rw [l.isGap c hgap]
    decide
  · have hc : c.isDigit = true := isDigit_of_mem_toDigits hdigit
    constructor
    · rintro rfl
      exact absurd hc (by decide)
    · rintro rfl
      exact absurd hc (by decide)
  · simp only [List.mem_cons, List.not_mem_nil, or_false] at hunit
    rcases hunit with rfl | rfl | rfl | rfl <;> decide

theorem cString_auxBuffer (lines : List Line) :
    cString (auxBuffer (content lines)) = content lines := by
  have hmem {c : Char} (hc : c ∈ content lines) : c ≠ Char.ofNat 0 ∧ c ≠ Char.ofNat 255 := by
    obtain ⟨l, -, hl⟩ := List.mem_flatMap.mp hc
    exact ne_of_mem_text hl
  have hread : readFile (content lines) = content lines :=
    List.takeWhile_eq_self_iff.mpr fun c hc => decide_eq_true (hmem hc).2
  rw [auxBuffer, hread, cString_padded fun h => (hmem h).1 rfl]

/-! ### The first `SwapTotal:` -/

abbrev swapTotal : List Char := "SwapTotal".toList

/-- The line from there on, if its name ends in `SwapTotal`. -/
def Line.fromSwapTotal (l : Line) : Line where
  name := swapTotal
  gap := l.gap
  value := l.value
  isName := allNames swapTotal (List.mem_append_right _ List.mem_cons_self)
  isGap := l.isGap
  isInt := l.isInt

theorem content_cons (l : Line) (lines : List Line) :
    content (l :: lines) = l.name ++ ':' ::
      ((l.gap ++ (printInt l.value ++ [' ', 'k', 'B', '\n'])) ++ content lines) := by
  simp [content, Line.text]

theorem strstr_line (l : Line) (lines : List Line) :
    strstr "SwapTotal:".toList (content (l :: lines)) =
      if swapTotal <:+ l.name then some (content (l.fromSwapTotal :: lines))
      else strstr "SwapTotal:".toList (content lines) := by
  have hpattern : "SwapTotal:".toList = swapTotal ++ [':'] := by decide
  have hname : ∀ c ∈ swapTotal, NameChar c := l.fromSwapTotal.isName
  have hletter : swapTotal = 'S' :: "wapTotal".toList := by decide
  -- no occurrence starts behind the name
  have hbehind : 'S' ∉ ':' :: (l.gap ++ (printInt l.value ++ [' ', 'k', 'B', '\n'])) := by
    rw [List.mem_cons, List.mem_append, List.mem_append]
    rintro (hcolon | hgap | hdigit | hunit)
    · exact absurd hcolon (by decide)
    · exact absurd (l.isGap 'S' hgap) (by decide)
    · exact absurd (isDigit_of_mem_toDigits hdigit) (by decide)
    · exact absurd hunit (by decide)
  have hfrom : content (l.fromSwapTotal :: lines) = swapTotal ++ ':' ::
      ((l.gap ++ (printInt l.value ++ [' ', 'k', 'B', '\n'])) ++ content lines) :=
    content_cons l.fromSwapTotal lines
  have hskip : strstr (swapTotal ++ [':'])
      (':' :: ((l.gap ++ (printInt l.value ++ [' ', 'k', 'B', '\n'])) ++ content lines)) =
      strstr (swapTotal ++ [':']) (content lines) := by
    rw [hletter]
    exact strstr_skip hbehind _ _
  have hne : swapTotal ≠ [] := by
    rw [hletter]
    exact List.cons_ne_nil _ _
  rw [content_cons, hfrom, hpattern, strstr_word hne (NameChar.colon_not_mem hname)
    (NameChar.colon_not_mem l.isName), hskip]

theorem strstr_lines {before : List Line} (h : ∀ l ∈ before, ¬ swapTotal <:+ l.name) {l : Line}
    (hl : swapTotal <:+ l.name) (lines : List Line) :
    strstr "SwapTotal:".toList (content (before ++ l :: lines)) =
      some (content (l.fromSwapTotal :: lines)) := by
  induction before with
  | nil => rw [List.nil_append, strstr_line, if_pos hl]
  | cons l' before ih =>
      obtain ⟨hl', hbefore⟩ := List.forall_mem_cons.mp h
      rw [List.cons_append, strstr_line, if_neg hl', ih hbefore]

/-! ### The variables -/

/-- A format that starts with a name, as its directives show. -/
theorem sscanf_lines {format : String} {names : List (List Char)}
    (hformat : .literal ' ' :: directives format.toList = namesFormat names)
    (hnames : AllNames names) (lines : List Line) :
    sscanf (content lines) format = commonValues names lines := by
  have hskip : skipSpace (content lines) = content lines := skipSpace_lines blank_nil lines
  have hspace : scan (.literal ' ' :: directives format.toList) (content lines) =
      sscanf (content lines) format := by
    rw [scan_space rfl, hskip]
    rfl
  rw [← hspace, hformat]
  exact scan_lines hnames blank_nil

section Variables

variable {before lines : List Line} {l : Line}

theorem readMemory_eq (h : ∀ l ∈ before, ¬ swapTotal <:+ l.name) (hl : swapTotal <:+ l.name)
    {mem swap : List Value} (hmem : commonValues memNames (before ++ l :: lines) = mem)
    (hswap : commonValues swapNames (l.fromSwapTotal :: lines) = swap) (v : SystemFeatures) :
    readMemory (content (before ++ l :: lines)) v = some (assigned mem swap v) := by
  have hnames : AllNames memNames := fun name hname =>
    allNames name (List.mem_append_left _ hname)
  have hnames' : AllNames swapNames := fun name hname =>
    allNames name (List.mem_append_right _ hname)
  rw [readMemory, cString_auxBuffer, strstr_lines h hl, sscanf_lines directives_memFormat hnames,
    hmem, Option.map_some, sscanf_lines directives_swapFormat hnames', hswap]

/-- What is printed gives the figures back. -/
theorem printed_eq_of_getFeatures_eq {v w : SystemFeatures} (h : getFeatures v = getFeatures w) :
    v.printed = w.printed := by
  obtain ⟨text, htext, -⟩ := getFeatures_eq v
  apply values_injective
  rw [← sscanf_getFeatures htext, ← sscanf_getFeatures (h ▸ htext)]

/-- A variable that is not read keeps what it held. -/
theorem lt_length_of_stored {values : List Value} {i : ℕ} {z : ℤ}
    (h : stored values i (z + 1) = z) : i < values.length := by
  by_contra hge
  rw [stored, List.getElem?_eq_none (Nat.le_of_not_lt hge)] at h
  exact absurd h (by simp)

end Variables

namespace File

variable (file : File)

/-- A line with the name of a figure has its value. -/
theorem value_eq {l : Line} (hl : l ∈ file.lines) (hname : l.name ∈ memNames ++ swapNames) :
    file.value l.name = l.value := by
  have hone : (file.lines.filter fun l' => l'.name = l.name).length = 1 := by
    have hcount := file.once l.name hname
    have hsame : (fun x => x == l.name) ∘ Line.name = fun l' : Line => decide (l'.name = l.name) :=
      funext fun l' => beq_eq_decide l'.name l.name
    rwa [List.count_eq_countP, List.countP_map, List.countP_eq_length_filter, hsame] at hcount
  obtain ⟨l₀, hl₀⟩ := List.length_eq_one_iff.mp hone
  have honly {l' : Line} (hl' : l' ∈ file.lines) (heq : l'.name = l.name) : l' = l₀ := by
    have hmem : l' ∈ file.lines.filter fun l' => l'.name = l.name :=
      List.mem_filter.mpr ⟨hl', decide_eq_true heq⟩
    rw [hl₀] at hmem
    exact List.mem_singleton.mp hmem
  obtain ⟨l', hl'⟩ : ∃ l', (file.lines.find? fun l' => l'.name = l.name) = some l' := by
    rw [← Option.isSome_iff_exists, List.find?_isSome]
    exact ⟨l, hl, decide_eq_true rfl⟩
  have hfound := List.find?_some hl'
  have heq : l'.name = l.name := of_decide_eq_true hfound
  rw [value, hl', honly (List.mem_of_find?_eq_some hl') heq, ← honly hl rfl]
  rfl

/-- The figures fit into the variables. -/
theorem storedInt_value (name : List Char) : storedInt (file.value name) = file.value name := by
  rw [value]
  cases hfind : file.lines.find? fun l => l.name = name with
  | none => rfl
  | some l =>
      have hint : ((l.value : ℕ) : ℤ) < 2 ^ 31 := by exact_mod_cast l.isInt
      exact storedInt_of_mem (by omega) hint

/-- The variables, when all conversions of both formats have been reached. -/
theorem assigned_figures (v : SystemFeatures) :
    assigned (memNames.map fun name => .int (file.value name))
      (swapNames.map fun name => .int (file.value name)) v = file.figures v := by
  have hassigned : assigned (memNames.map fun name => .int (file.value name))
      (swapNames.map fun name => .int (file.value name)) v =
        { v with
          memTotal := storedInt (file.value "MemTotal".toList)
          memFree := storedInt (file.value "MemFree".toList)
          memBuffers := storedInt (file.value "Buffers".toList)
          memCached := storedInt (file.value "Cached".toList)
          memUsed := storedInt (file.value "MemTotal".toList) -
            storedInt (file.value "MemFree".toList)
          memShared := 0
          swapTotal := storedInt (file.value "SwapTotal".toList)
          swapFree := storedInt (file.value "SwapFree".toList)
          swapUsed := storedInt (file.value "SwapTotal".toList) -
            storedInt (file.value "SwapFree".toList) } := rfl
  rw [hassigned, figures]
  simp only [storedInt_value]

/-- The first line with a name that ends in `SwapTotal`. -/
theorem exists_first : ∃ before l lines, file.lines = before ++ l :: lines ∧
    (∀ l' ∈ before, ¬ swapTotal <:+ l'.name) ∧ swapTotal <:+ l.name := by
  have hmem : swapTotal ∈ file.lines.map Line.name :=
    file.ordered.subset (List.mem_append_right _ List.mem_cons_self)
  obtain ⟨l', hl', heq⟩ := List.mem_map.mp hmem
  obtain ⟨l, hl⟩ : ∃ l, (file.lines.find? fun l => swapTotal <:+ l.name) = some l := by
    rw [← Option.isSome_iff_exists, List.find?_isSome]
    exact ⟨l', hl', decide_eq_true (heq ▸ List.suffix_rfl)⟩
  obtain ⟨hends, before, lines, heq, hbefore⟩ := List.find?_eq_some_iff_append.mp hl
  refine ⟨before, l, lines, heq, ?_, of_decide_eq_true hends⟩
  intro l' hl' hends'
  have hnot := hbefore l' hl'
  rw [decide_eq_true hends'] at hnot
  cases hnot

/-- What comes before a name that occurs once. -/
theorem mem_of_sublist {a b : List Char} {before after : List (List Char)}
    (h : [a, b].Sublist (before ++ b :: after)) (hb : b ∉ after) : a ∈ before := by
  obtain ⟨l₁, l₂, heq, h₁, h₂⟩ := List.sublist_append_iff.mp h
  cases l₁ with
  | nil =>
      obtain rfl : [a, b] = l₂ := heq
      exact absurd (h₂.tail.subset List.mem_cons_self) hb
  | cons c l₁ =>
      obtain rfl : a = c := (List.cons.inj heq).1
      exact h₁.subset List.mem_cons_self

/-- It is `SwapTotal` if `SwapFree` stands behind it. -/
theorem name_eq_swapTotal {before names : List (List Char)} {name : List Char}
    (hnames : file.lines.map Line.name = before ++ name :: "SwapFree".toList :: names)
    (hbefore : ∀ name ∈ before, ¬ swapTotal <:+ name) : name = swapTotal := by
  have hsplit : file.lines.map Line.name = (before ++ [name]) ++ "SwapFree".toList :: names := by
    rw [hnames, List.append_assoc, List.singleton_append]
  have horder : [swapTotal, "SwapFree".toList].Sublist
      ((before ++ [name]) ++ "SwapFree".toList :: names) := by
    rw [← hsplit]
    exact (List.sublist_append_right memNames swapNames).trans file.ordered
  have honce : "SwapFree".toList ∉ names := by
    have hcount := file.once "SwapFree".toList
      (List.mem_append_right _ (List.mem_cons_of_mem _ List.mem_cons_self))
    rw [hsplit, List.count_append, List.count_cons_self] at hcount
    exact List.count_eq_zero.mp (by omega)
  rcases List.mem_append.mp (mem_of_sublist horder honce) with hmem | hmem
  · exact absurd List.suffix_rfl (hbefore _ hmem)
  · exact (List.mem_singleton.mp hmem).symm

/-- If the figures are right, the last conversion of each format is reached. -/
theorem reports_read (h : file.Reports) {before lines : List Line} {l : Line}
    (hlines : file.lines = before ++ l :: lines) (hbefore : ∀ l ∈ before, ¬ swapTotal <:+ l.name)
    (hl : swapTotal <:+ l.name) :
    memNames <+: file.lines.map Line.name ∧
      swapNames <+: (l.fromSwapTotal :: lines).map Line.name := by
  -- variables that hold something else than the figures
  have hprinted := h { (default : SystemFeatures) with
    memCached := file.value "Cached".toList + 1
    swapFree := file.value "SwapFree".toList + 1 }
  rw [hlines, readMemory_eq hbefore hl rfl rfl, Option.bind_some] at hprinted
  have heq := printed_eq_of_getFeatures_eq hprinted
  have hmem : 3 < (commonValues memNames (before ++ l :: lines)).length :=
    lt_length_of_stored (congrArg SystemFeatures.memCached heq)
  have hswap : 1 < (commonValues swapNames (l.fromSwapTotal :: lines)).length :=
    lt_length_of_stored (congrArg SystemFeatures.swapFree heq)
  exact ⟨hlines ▸ prefix_of_length hmem, prefix_of_length hswap⟩

/-- With the figures in these places, everything is read. -/
theorem reports_of_names {before after : List (List Char)}
    (hmem : memNames <+: file.lines.map Line.name)
    (hnames : file.lines.map Line.name = before ++ swapNames ++ after)
    (hbefore : ∀ name ∈ before, ¬ swapTotal <:+ name) : file.Reports := by
  intro v
  rw [List.append_assoc] at hnames
  obtain ⟨ls, ls', hlines, rfl, hls'⟩ := List.map_eq_append_iff.mp hnames
  obtain ⟨l, lines, rfl, hl, hrest⟩ := List.map_eq_cons_iff.mp hls'
  have hin : ∀ l' ∈ l :: lines, l' ∈ file.lines := fun l' hl' =>
    hlines ▸ List.mem_append_right ls hl'
  have hmem' : commonValues memNames (ls ++ l :: lines) =
      memNames.map fun name => .int (file.value name) := by
    rw [← hlines]
    exact commonValues_eq hmem fun l' hl' hname =>
      file.value_eq hl' (List.mem_append_left _ hname)
  have hswap : commonValues swapNames (l.fromSwapTotal :: lines) =
      swapNames.map fun name => .int (file.value name) := by
    apply commonValues_eq
    · rw [List.map_cons, hrest]
      exact ⟨after, rfl⟩
    · refine List.forall_mem_cons.mpr ⟨fun _ => ?_, ?_⟩
      · have hvalue := file.value_eq (hin l List.mem_cons_self)
          (hl ▸ List.mem_append_right _ List.mem_cons_self)
        rw [hl] at hvalue
        exact hvalue
      · intro l' hl' hname
        exact file.value_eq (hin l' (List.mem_cons_of_mem _ hl')) (List.mem_append_right _ hname)
  have hls : ∀ l ∈ ls, ¬ swapTotal <:+ l.name := fun l hl =>
    hbefore l.name (List.mem_map_of_mem hl)
  have hends : swapTotal <:+ l.name := hl ▸ List.suffix_rfl
  rw [hlines, readMemory_eq hls hends hmem' hswap, Option.bind_some, file.assigned_figures]

/-- **When the figures are right.**  Whatever the variables held, the lines of
the memory and of the swap carry the figures of the file exactly if `MemTotal`,
`MemFree`, `Buffers` and `Cached` are its first lines, and `SwapFree` stands
directly behind `SwapTotal`, with no name that ends in `SwapTotal` before. -/
theorem reports_iff :
    file.Reports ↔ memNames <+: file.lines.map Line.name ∧
      ∃ before after, file.lines.map Line.name = before ++ swapNames ++ after ∧
        ∀ name ∈ before, ¬ swapTotal <:+ name := by
  constructor
  · intro hreports
    obtain ⟨before, l, lines, hlines, hbefore, hl⟩ := file.exists_first
    obtain ⟨hmem, hswap⟩ := file.reports_read hreports hlines hbefore hl
    obtain ⟨names, hrest⟩ := (List.cons_prefix_cons.mp hswap).2
    have hnames : file.lines.map Line.name =
        before.map Line.name ++ l.name :: "SwapFree".toList :: names := by
      rw [hlines, List.map_append, List.map_cons, ← hrest]
      rfl
    have hbefore' : ∀ name ∈ before.map Line.name, ¬ swapTotal <:+ name :=
      List.forall_mem_map.mpr hbefore
    refine ⟨hmem, before.map Line.name, names, ?_, hbefore'⟩
    rw [hnames, file.name_eq_swapTotal hnames hbefore', List.append_assoc]
    rfl
  · rintro ⟨hmem, before, after, hnames, hbefore⟩
    exact file.reports_of_names hmem hnames hbefore

end File

/-! ### A file of a newer kernel -/

def line (name : String) (value : ℕ)
    (hname : name.toList.all (fun c => decide (NameChar c)) = true) (hvalue : value < 2 ^ 31) :
    Line where
  name := name.toList
  gap := [' ']
  value := value
  isName := fun c hc => of_decide_eq_true (List.all_eq_true.mp hname c hc)
  isGap := fun _ hc => List.mem_singleton.mp hc
  isInt := hvalue

/-- `MemAvailable` stands between the figures. -/
def withMemAvailable : File where
  lines :=
    [line "MemTotal" 8 (by decide +kernel) (by decide),
      line "MemFree" 4 (by decide +kernel) (by decide),
      line "MemAvailable" 6 (by decide +kernel) (by decide),
      line "Buffers" 1 (by decide +kernel) (by decide),
      line "Cached" 2 (by decide +kernel) (by decide),
      line "SwapTotal" 3 (by decide +kernel) (by decide),
      line "SwapFree" 3 (by decide +kernel) (by decide)]
  ordered := by decide +kernel
  once := by decide +kernel
  short := by decide +kernel

theorem not_reports_withMemAvailable : ¬ withMemAvailable.Reports := by
  intro hreports
  obtain ⟨before, l, lines, hlines, hbefore, hl⟩ := withMemAvailable.exists_first
  have hmem := (withMemAvailable.reports_read hreports hlines hbefore hl).1
  exact absurd hmem (by decide +kernel)

end A2PM.MemInfo
