/-
A2PM/DatabaseParser.lean

`read_db_file` of `model_build/aggregate.c`, which reads the database of
datapoints into one list for each run.

The parser fills in one record, `a_new_point`, line by line, and copies it into
a new node at the `CPU` line.  The record has arbitrary contents at first; its
link is copied with it, and is set when another node follows.

A database is described by the lines that it is made of.  Main result
(`readDbFile_holds`): from such a text the parser gets the complete blocks of
each run, in their order, with the numbers as the fields have them.  An `int`
that is too great for its field comes out as another one (`overflow_differs`).
Within a run the lists of the earlier runs stay behind an address from which on
the run takes its nodes (`InRun`); what the record holds at the start of a block
does not matter, as the four lines of the block write every field that the block
has.
-/
import A2PM.Aggregation
import A2PM.LinkedList
import A2PM.Numerals
import A2PM.TextInput
import Mathlib.Data.List.Forall2

namespace A2PM.ModelBuild

open FormattedText TextInput

/-! ### The parser -/

/-- `MAX_RUNS`. -/
def maxRuns : ℕ := 1024

/-- `MAX_LINE_LENGTH`. -/
def maxLineLength : ℕ := 1024

theorem one_lt_maxLineLength : 1 < maxLineLength := by decide

/-- The line that opens a run. -/
def newActiveMachine : String := "------------NEW ACTIVE MACHINE:----------\n"

/-- What ends the parser early. -/
inductive Stop
  /-- The error exit, with the token and the number of the line. -/
  | unknownToken (token : List Char) (line : ℕ)
  /-- `assert(curr_list != NULL)` fails. -/
  | assertion
  /-- `strcmp` or `sscanf` is passed `NULL`. -/
  | nullString
  /-- `input_datapoints` has no element at `curr_run`. -/
  | outOfBounds
  /-- `insertRear` follows a link that leads to no node. -/
  | badLink

/-- The variables of `read_db_file`, the nodes, and the runs read so far: the
first `curr_run` elements of `input_datapoints`. -/
structure ReadState where
  heap : Heap Node
  /-- `malloc` returns the addresses in turn. -/
  allocated : ℕ
  inputDatapoints : List LinkedList
  /-- The index of the run whose list `curr_list` is. -/
  currList : Option ℕ
  aNewPoint : Cell Node
  readNodes : ℕ
  lineCount : ℕ

namespace ReadState

/-- `curr_run`. -/
def currRun (s : ReadState) : ℕ := s.inputDatapoints.length

/-- Before the first line; `aNewPoint` is what the memory held. -/
def initial (aNewPoint : Cell Node) : ReadState where
  heap := fun _ => none
  allocated := 0
  inputDatapoints := []
  currList := none
  aNewPoint := aNewPoint
  readNodes := 0
  lineCount := 0

/-- A new run. -/
def newRun (s : ReadState) : Except Stop ReadState :=
  -- the source does not compare: it stores at `curr_run` in any case
  if s.currRun < maxRuns then
    .ok { s with
      inputDatapoints := s.inputDatapoints ++ [LinkedList.initList]
      currList := some s.currRun }
  else .error .outOfBounds

/-- A completed datapoint: a copy of the record in a new node at the end of
the run, and `bzero` of the record. -/
def addDatapoint (s : ReadState) : Except Stop ReadState :=
  match s.currList with
  | none => .error .assertion
  | some i =>
      let heap := Function.update s.heap s.allocated (some s.aNewPoint)
      match s.inputDatapoints[i]?.bind fun l => l.insertRear heap s.allocated with
      | none => .error .badLink
      | some (heap, l) =>
          .ok { s with
            heap := heap
            allocated := s.allocated + 1
            inputDatapoints := s.inputDatapoints.set i l
            aNewPoint := ⟨.zero, none⟩
            readNodes := s.readNodes + 1 }

end ReadState

/-- A field of the record that `sscanf` writes. -/
inductive Target
  | key
  | int (f : IntField)
  | cpu (f : CpuField)

/-- `sscanf` writes a value, as an `int` or a `double`; the formats go with the
targets. -/
def store (p : Node) : Target × Value → Node
  | (.key, .float q) => { p with key := storedDouble q }
  | (.int f, .int z) => { p with int := Function.update p.int f (storedInt z) }
  | (.cpu f, .float q) => { p with cpu := Function.update p.cpu f (storedDouble q) }
  | _ => p

/-- The values in turn, as far as they go. -/
def storeAll (targets : List Target) (values : List Value) (p : Node) : Node :=
  (targets.zip values).foldl store p

def datapointTargets : List Target := [.key, .int .nTh]

/-- The first number is `mem_total`; the second one overwrites it. -/
def memoryTargets : List Target :=
  [.int .memUsed, .int .memUsed, .int .memFree, .int .memShared, .int .memBuffers, .int .memCached]

/-- The first number is `swap_total`; the second one overwrites it. -/
def swapTargets : List Target := [.int .swapUsed, .int .swapUsed, .int .swapFree]

def cpuTargets : List Target :=
  [.cpu .cpuUser, .cpu .cpuNice, .cpu .cpuSystem, .cpu .cpuIowait, .cpu .cpuSteal, .cpu .cpuIdle]

/-- The `sscanf` for a token: its format and its targets. -/
def fieldsOf (token : List Char) : Option (String × List Target) :=
  if token = "Datapoint".toList then some ("%lf %d\n", datapointTargets)
  else if token = "Memory".toList then some ("%d %d %d %d %d %d\n", memoryTargets)
  else if token = "Swap".toList then some ("%d %d %d\n", swapTargets)
  else if token = "CPU".toList then some ("%lf %lf %lf %lf %lf %lf\n", cpuTargets)
  else none

/-- One iteration of the loop, on what `fgets` has stored. -/
def processLine (s : ReadState) (line : List Char) : Except Stop ReadState :=
  -- `strcmp` and `strtok` see the line up to a null character
  let line := cString line
  let s := { s with lineCount := s.lineCount + 1 }
  if line = newActiveMachine.toList then s.newRun
  else
    match strtok ":" line with
    | none => .error .nullString
    | some (token, rest) =>
        match fieldsOf token with
        | none => .error (.unknownToken token s.lineCount)
        | some (format, targets) =>
            match strtok ":" rest with
            | none => .error .nullString
            | some (text, _) =>
                let values := scanNumbers (conversions format.toList) text
                let s := { s with aNewPoint.data := storeAll targets values s.aNewPoint.data }
                -- `datapoint_fully_filled`
                if token = "CPU".toList then s.addDatapoint else .ok s

def processLines (s : ReadState) (lines : List (List Char)) : Except Stop ReadState :=
  lines.foldlM processLine s

/-- `read_db_file`. -/
def readDbFile (aNewPoint : Cell Node) (text : List Char) : Except Stop ReadState :=
  processLines (.initial aNewPoint) (lines maxLineLength one_lt_maxLineLength text)

/-! ### The text of a database -/

/-- The numbers of a block. -/
structure Block where
  key : ℚ
  int : IntField → ℤ
  cpu : CpuField → ℚ
  memTotal : ℤ
  swapTotal : ℤ

namespace Block

variable (b : Block)

def datapoint : List Value := [.float b.key, .int (b.int .nTh)]

def memory : List Value :=
  [.int b.memTotal, .int (b.int .memUsed), .int (b.int .memFree), .int (b.int .memShared),
    .int (b.int .memBuffers), .int (b.int .memCached)]

def swap : List Value := [.int b.swapTotal, .int (b.int .swapUsed), .int (b.int .swapFree)]

def cpuShares : List Value :=
  [.float (b.cpu .cpuUser), .float (b.cpu .cpuNice), .float (b.cpu .cpuSystem),
    .float (b.cpu .cpuIowait), .float (b.cpu .cpuSteal), .float (b.cpu .cpuIdle)]

/-- The four lines of a block: keyword and numbers. -/
def lines : List (String × List Value) :=
  [("Datapoint", b.datapoint), ("Memory", b.memory), ("Swap", b.swap), ("CPU", b.cpuShares)]

end Block

/-- A line with a keyword, a colon and numerals of these values. -/
def IsLine (content : String × List Value) (line : List Char) : Prop :=
  ∃ body, line = content.1.toList ++ ':' :: (body ++ ['\n']) ∧ '\n' ∉ body ∧
    Numerals content.2 body ∧ line.length < maxLineLength

/-- The lines of a run: the header, the complete blocks, and at most the first
three lines of another block. -/
def IsRun (blocks : List Block) (lines : List (List Char)) : Prop :=
  ∃ (full : List (List (List Char))) (last : Block) (n : ℕ) (cut : List (List Char)),
    List.Forall₂ (fun b => List.Forall₂ IsLine b.lines) blocks full ∧ n < last.lines.length ∧
      List.Forall₂ IsLine (last.lines.take n) cut ∧
      lines = newActiveMachine.toList :: (full.flatten ++ cut)

/-- The text of these runs. -/
def IsDatabase (runs : List (List Block)) (text : List Char) : Prop :=
  ∃ lines, List.Forall₂ IsRun runs lines ∧ text = lines.flatten.flatten

/-- The node has the numbers of the block, without the totals, as `int` and
`double` turn them out. -/
structure Node.IsOf (int : ℤ → ℤ) (double : ℚ → ℚ) (p : Node) (b : Block) : Prop where
  key : p.key = double b.key
  int : ∀ f, p.int f = int (b.int f)
  cpu : ∀ f, p.cpu f = double (b.cpu f)

/-- The integers fit into the fields, and the other numbers into a `double`. -/
structure Block.Fits (b : Block) : Prop where
  key : |storedDouble b.key| < 2 ^ 1024
  int : ∀ f, -2 ^ 31 ≤ b.int f ∧ b.int f < 2 ^ 31
  cpu : ∀ f, |storedDouble (b.cpu f)| < 2 ^ 1024

/-! ### Lines and tokens -/

def keywords : List String := ["Datapoint", "Memory", "Swap", "CPU"]

theorem Block.keyword_mem {b : Block} {content : String × List Value} (h : content ∈ b.lines) :
    content.1 ∈ keywords := by
  have hmap : b.lines.map Prod.fst = keywords := rfl
  rw [← hmap]
  exact List.mem_map_of_mem h

/-- A keyword is a token, and not the start of the header. -/
theorem keyword_spec {keyword : String} (h : keyword ∈ keywords) :
    keyword.toList ≠ [] ∧ ':' ∉ keyword.toList ∧ '\n' ∉ keyword.toList ∧
      Char.ofNat 0 ∉ keyword.toList ∧
      keyword.toList.head? ≠ newActiveMachine.toList.head? := by
  revert h keyword
  decide

theorem header_wholeLine : WholeLine maxLineLength newActiveMachine.toList :=
  ⟨newActiveMachine.toList.dropLast, by decide, by decide, by decide⟩

theorem IsLine.wholeLine {content : String × List Value} {line : List Char} (h : IsLine content line)
    (hkeyword : content.1 ∈ keywords) : WholeLine maxLineLength line := by
  obtain ⟨body, rfl, hbody, -, hlength⟩ := h
  obtain ⟨-, -, hnewline, -⟩ := keyword_spec hkeyword
  refine ⟨content.1.toList ++ ':' :: body, ?_, ?_, hlength⟩
  · rw [List.append_assoc, List.cons_append]
  · intro hmem
    rcases List.mem_append.mp hmem with hmem | hmem
    · exact hnewline hmem
    · rcases List.mem_cons.mp hmem with hcolon | hmem
      · cases hcolon
      · exact hbody hmem

/-- The two tokens of a line: the keyword, and the numerals. -/
theorem IsLine.tokens {content : String × List Value} {line : List Char}
    (h : IsLine content line) (hkeyword : content.1 ∈ keywords) :
    ∃ text, cString line = line ∧ line ≠ newActiveMachine.toList ∧
      strtok ":" line = some (content.1.toList, text) ∧ strtok ":" text = some (text, []) ∧
      Numerals content.2 text := by
  obtain ⟨body, rfl, -, hnumerals, -⟩ := h
  obtain ⟨hne, hseparator, -, hnull, hhead⟩ := keyword_spec hkeyword
  have htext : Numerals content.2 (body ++ ['\n']) := hnumerals.append (blank_singleton rfl)
  have hcolon : ∀ c ∈ body ++ ['\n'], (":".toList.contains c) = false := by
    intro c hc
    have hnumber := htext.isNumberChar_of_mem hc
    by_contra hcontains
    obtain rfl : c = ':' := by simpa using hcontains
    cases hnumber
  refine ⟨body ++ ['\n'], ?_, ?_, ?_, ?_, htext⟩
  · apply cString_eq
    intro hmem
    rcases List.mem_append.mp hmem with hmem | hmem
    · exact hnull hmem
    · rcases List.mem_cons.mp hmem with hcolon | hmem
      · exact absurd hcolon (by decide)
      · exact absurd (htext.isNumberChar_of_mem hmem) (by decide)
  -- the header begins with another character
  · intro heq
    apply hhead
    rw [← heq, List.head?_append_of_ne_nil _ hne]
  · apply strtok_word hne _ (by decide)
    intro c hc
    have hne : c ≠ ':' := fun heq => hseparator (heq ▸ hc)
    simpa using hne
  · exact strtok_last (List.append_ne_nil_of_right_ne_nil _ (List.cons_ne_nil _ _)) hcolon

theorem fieldsOf_datapoint :
    fieldsOf "Datapoint".toList = some ("%lf %d\n", datapointTargets) := if_pos rfl

theorem fieldsOf_memory :
    fieldsOf "Memory".toList = some ("%d %d %d %d %d %d\n", memoryTargets) := by
  rw [fieldsOf, if_neg (by decide), if_pos rfl]

theorem fieldsOf_swap : fieldsOf "Swap".toList = some ("%d %d %d\n", swapTargets) := by
  rw [fieldsOf, if_neg (by decide), if_neg (by decide), if_pos rfl]

theorem fieldsOf_cpu :
    fieldsOf "CPU".toList = some ("%lf %lf %lf %lf %lf %lf\n", cpuTargets) := by
  rw [fieldsOf, if_neg (by decide), if_neg (by decide), if_neg (by decide), if_pos rfl]

/-- The state once a line is scanned. -/
def ReadState.filled (s : ReadState) (targets : List Target) (values : List Value) : ReadState :=
  { s with
    lineCount := s.lineCount + 1
    aNewPoint.data := storeAll targets values s.aNewPoint.data }

theorem processLine_fields {content : String × List Value} {line : List Char}
    (h : IsLine content line) (hkeyword : content.1 ∈ keywords) {format : String}
    {targets : List Target} (hfields : fieldsOf content.1.toList = some (format, targets))
    (hformat : conversions format.toList = content.2.map Value.conversion) (s : ReadState) :
    processLine s line =
      if content.1.toList = "CPU".toList then (s.filled targets content.2).addDatapoint
      else .ok (s.filled targets content.2) := by
  obtain ⟨text, hcstring, hheader, htoken, hrest, hnumerals⟩ := h.tokens hkeyword
  have hvalues : scanNumbers (conversions format.toList) text = content.2 := by
    rw [hformat]
    exact scanNumbers_numerals hnumerals
  simp only [processLine, hcstring, hheader, if_false, htoken, hfields, hrest, hvalues]
  rfl

/-! ### The lists of the runs -/

/-- The list has nodes of these blocks, at addresses from `lo` up to `hi`. -/
def RunHolds (heap : Heap Node) (lo hi : ℕ) (l : LinkedList) (blocks : List Block) : Prop :=
  ∃ nodes, l.Holds heap nodes ∧
    List.Forall₂ (fun node b => Node.IsOf storedInt storedDouble node.2 b) nodes blocks ∧
    ∀ node ∈ nodes, lo ≤ node.1 ∧ node.1 < hi

/-- The address range of a run decides where its list can change. -/
theorem RunHolds.congr {heap heap' : Heap Node} {lo hi hi' : ℕ} {l : LinkedList}
    {blocks : List Block} (h : RunHolds heap lo hi l blocks) (hhi : hi ≤ hi')
    (hheap : ∀ p, lo ≤ p → p < hi → heap' p = heap p) : RunHolds heap' lo hi' l blocks := by
  obtain ⟨nodes, hholds, hblocks, hrange⟩ := h
  refine ⟨nodes, hholds.congr fun node hnode => ?_, hblocks, fun node hnode => ?_⟩
  · exact hheap node.1 (hrange node hnode).1 (hrange node hnode).2
  · exact ⟨(hrange node hnode).1, (hrange node hnode).2.trans_le hhi⟩

/-- The next node of a run is taken from behind its addresses. -/
theorem RunHolds.insertRear {heap : Heap Node} {lo hi : ℕ} {l : LinkedList}
    {blocks : List Block} (h : RunHolds heap lo hi l blocks) (hle : lo ≤ hi) {c : Cell Node}
    {b : Block} (hc : c.data.IsOf storedInt storedDouble b) :
    ∃ heap' l', l.insertRear (Function.update heap hi (some c)) hi = some (heap', l') ∧
      RunHolds heap' lo (hi + 1) l' (blocks ++ [b]) ∧ ∀ p < lo, heap' p = heap p := by
  obtain ⟨nodes, hholds, hblocks, hrange⟩ := h
  -- the new node is at `hi`, behind the nodes of the run
  have hbehind : hi ∉ nodes.map Prod.fst := by
    intro hmem
    obtain ⟨node, hnode, heq⟩ := List.mem_map.mp hmem
    exact absurd (hrange node hnode).2 (heq ▸ Nat.lt_irrefl _)
  have hupdated : l.Holds (Function.update heap hi (some c)) nodes := by
    refine hholds.congr fun node hnode => Function.update_of_ne ?_ ..
    exact Nat.ne_of_lt (hrange node hnode).2
  obtain ⟨heap', l', hinsert, hholds', hframe⟩ :=
    hupdated.insertRear hbehind (Function.update_self ..)
  refine ⟨heap', l', hinsert, ⟨nodes ++ [(hi, c.data)], hholds', ?_, ?_⟩, fun p hp => ?_⟩
  · exact List.rel_append hblocks (.cons hc .nil)
  · intro node hnode
    rcases List.mem_append.mp hnode with hnode | hnode
    · exact ⟨(hrange node hnode).1, (hrange node hnode).2.trans (Nat.lt_succ_self hi)⟩
    · obtain rfl := List.mem_singleton.mp hnode
      exact ⟨hle, Nat.lt_succ_self hi⟩
  · rw [hframe p, Function.update_of_ne (Nat.ne_of_lt (hp.trans_le hle))]
    intro hmem
    obtain ⟨node, hnode, rfl⟩ := List.mem_map.mp hmem
    exact absurd hp (Nat.not_lt.mpr (hrange node hnode).1)

/-- The runs are read. -/
def ReadState.Parsed (s : ReadState) (runs : List (List Block)) : Prop :=
  List.Forall₂ (RunHolds s.heap 0 s.allocated) s.inputDatapoints runs

/-- The runs are read, and these blocks of the run after them, which has its
nodes from address `start` on. -/
def ReadState.InRun (s : ReadState) (start : ℕ) (runs : List (List Block))
    (blocks : List Block) : Prop :=
  start ≤ s.allocated ∧ ∃ before l, s.inputDatapoints = before ++ [l] ∧
    s.currList = some before.length ∧ List.Forall₂ (RunHolds s.heap 0 start) before runs ∧
    RunHolds s.heap start s.allocated l blocks

theorem ReadState.InRun.parsed {s : ReadState} {start : ℕ} {runs : List (List Block)}
    {blocks : List Block} (h : s.InRun start runs blocks) : s.Parsed (runs ++ [blocks]) := by
  obtain ⟨hstart, before, l, hlists, -, hbefore, nodes, hholds, hblocks, hrange⟩ := h
  unfold Parsed
  rw [hlists]
  apply List.rel_append
  · exact hbefore.imp fun l blocks hl => hl.congr hstart fun _ _ _ => rfl
  · refine .cons ⟨nodes, hholds, hblocks, fun node hnode => ?_⟩ .nil
    exact ⟨Nat.zero_le _, (hrange node hnode).2⟩

/-- The record and the count of lines are not part of what is read. -/
theorem ReadState.InRun.filled {s : ReadState} {start : ℕ} {runs : List (List Block)}
    {blocks : List Block} (h : s.InRun start runs blocks) (targets : List Target)
    (values : List Value) : (s.filled targets values).InRun start runs blocks := h

/-- The header opens a run with no blocks. -/
theorem processLine_header {s : ReadState} {runs : List (List Block)} (h : s.Parsed runs)
    (hroom : runs.length < maxRuns) :
    ∃ s', processLine s newActiveMachine.toList = .ok s' ∧ s'.InRun s'.allocated runs [] := by
  have hlength : s.inputDatapoints.length = runs.length := h.length_eq
  have hopen : s.currRun < maxRuns := hlength.trans_lt hroom
  refine ⟨{ s with
    lineCount := s.lineCount + 1
    inputDatapoints := s.inputDatapoints ++ [LinkedList.initList]
    currList := some s.currRun }, ?_, Nat.le_refl _, s.inputDatapoints, LinkedList.initList,
    rfl, rfl, h, [], LinkedList.holds_initList _, .nil, nofun⟩
  have hcstring : cString newActiveMachine.toList = newActiveMachine.toList := by decide
  simp only [processLine, hcstring, if_true, ReadState.newRun]
  exact if_pos hopen

/-- A completed record becomes the next node of the run. -/
theorem ReadState.InRun.addDatapoint {s : ReadState} {start : ℕ} {runs : List (List Block)}
    {blocks : List Block} (h : s.InRun start runs blocks) {b : Block}
    (hb : s.aNewPoint.data.IsOf storedInt storedDouble b) :
    ∃ s', s.addDatapoint = .ok s' ∧ s'.InRun start runs (blocks ++ [b]) := by
  obtain ⟨hstart, before, l, hlists, hcurr, hbefore, hrun⟩ := h
  obtain ⟨heap', l', hinsert, hrun', hframe⟩ := hrun.insertRear hstart hb
  have hget : s.inputDatapoints[before.length]? = some l := by
    rw [hlists, List.getElem?_concat_length]
  have hset : s.inputDatapoints.set before.length l' = before ++ [l'] := by
    rw [hlists, List.set_append_right _ _ (Nat.le_refl _), Nat.sub_self]
    rfl
  refine ⟨{ s with
    heap := heap'
    allocated := s.allocated + 1
    inputDatapoints := s.inputDatapoints.set before.length l'
    aNewPoint := ⟨.zero, none⟩
    readNodes := s.readNodes + 1 }, ?_, hstart.trans (Nat.le_succ _), before, l', hset, hcurr,
    ?_, hrun'⟩
  · simp only [ReadState.addDatapoint, hcurr, hget, Option.bind_some, hinsert]
  -- the earlier runs are in front of `start`, where nothing changes
  · exact hbefore.imp fun l blocks hl => hl.congr (Nat.le_refl _) fun p _ hp => hframe p hp

/-! ### Blocks, runs and databases -/

theorem processLines_cons {s s' : ReadState} {line : List Char}
    (h : processLine s line = .ok s') (rest : List (List Char)) :
    processLines s (line :: rest) = processLines s' rest := by
  rw [processLines, List.foldlM_cons, h]
  rfl

theorem processLines_append {s s' : ReadState} {ls : List (List Char)}
    (h : processLines s ls = .ok s') (rest : List (List Char)) :
    processLines s (ls ++ rest) = processLines s' rest := by
  rw [processLines, List.foldlM_append]
  rw [processLines] at h
  rw [h]
  rfl

/-- The four lines of a block write every field that it has. -/
theorem isOf_storeAll (p : Node) (b : Block) :
    (storeAll cpuTargets b.cpuShares (storeAll swapTargets b.swap (storeAll memoryTargets b.memory
      (storeAll datapointTargets b.datapoint p)))).IsOf storedInt storedDouble b := by
  refine ⟨rfl, fun f => ?_, fun f => ?_⟩
  · cases f <;> rfl
  · cases f <;> rfl

/-- The four lines of a block write all its fields, and add its node. -/
theorem processLines_block {s : ReadState} {start : ℕ} {runs : List (List Block)}
    {blocks : List Block} (h : s.InRun start runs blocks) {b : Block} {ls : List (List Char)}
    (hb : List.Forall₂ IsLine b.lines ls) :
    ∃ s', processLines s ls = .ok s' ∧ s'.InRun start runs (blocks ++ [b]) := by
  have hkeyword {content : String × List Value} (hmem : content ∈ b.lines) :
      content.1 ∈ keywords := Block.keyword_mem hmem
  rw [Block.lines] at hb
  rcases hb with - | ⟨hdatapoint, - | ⟨hmemory, - | ⟨hswap, - | ⟨hcpu, - | -⟩⟩⟩⟩
  have h₁ (s : ReadState) :=
    (processLine_fields hdatapoint (hkeyword (.head _)) fieldsOf_datapoint rfl s).trans
      (if_neg (show ¬ "Datapoint".toList = "CPU".toList by decide))
  have h₂ (s : ReadState) :=
    (processLine_fields hmemory (hkeyword (.tail _ (.head _))) fieldsOf_memory rfl s).trans
      (if_neg (show ¬ "Memory".toList = "CPU".toList by decide))
  have h₃ (s : ReadState) :=
    (processLine_fields hswap (hkeyword (.tail _ (.tail _ (.head _)))) fieldsOf_swap rfl s).trans
      (if_neg (show ¬ "Swap".toList = "CPU".toList by decide))
  have h₄ (s : ReadState) :=
    (processLine_fields hcpu (hkeyword (.tail _ (.tail _ (.tail _ (.head _))))) fieldsOf_cpu rfl
      s).trans (if_pos rfl)
  -- three lines fill in the record, the fourth one adds it
  have hin := (((h.filled datapointTargets b.datapoint).filled memoryTargets b.memory).filled
    swapTargets b.swap).filled cpuTargets b.cpuShares
  obtain ⟨s', hs', hin'⟩ := hin.addDatapoint (isOf_storeAll _ b)
  refine ⟨s', ?_, hin'⟩
  rw [processLines_cons (h₁ s), processLines_cons (h₂ _), processLines_cons (h₃ _)]
  exact processLines_cons ((h₄ _).trans hs') []

/-- The lines before the last one of a block. -/
theorem fieldsOf_of_mem_take {b : Block} {content : String × List Value}
    (h : content ∈ b.lines.take 3) :
    ∃ format targets, fieldsOf content.1.toList = some (format, targets) ∧
      conversions format.toList = content.2.map Value.conversion ∧
      content.1.toList ≠ "CPU".toList := by
  change content ∈ [("Datapoint", b.datapoint), ("Memory", b.memory), ("Swap", b.swap)] at h
  simp only [List.mem_cons, List.not_mem_nil, or_false] at h
  rcases h with rfl | rfl | rfl
  · exact ⟨_, _, fieldsOf_datapoint, rfl, show "Datapoint".toList ≠ "CPU".toList by decide⟩
  · exact ⟨_, _, fieldsOf_memory, rfl, show "Memory".toList ≠ "CPU".toList by decide⟩
  · exact ⟨_, _, fieldsOf_swap, rfl, show "Swap".toList ≠ "CPU".toList by decide⟩

/-- The lines before the last one of a block touch the record only. -/
theorem processLines_cut {start : ℕ} {runs : List (List Block)} {blocks : List Block}
    {last : Block} {contents : List (String × List Value)} {ls : List (List Char)}
    (hls : List.Forall₂ IsLine contents ls)
    (hcut : ∀ content ∈ contents, content ∈ last.lines.take 3) {s : ReadState}
    (h : s.InRun start runs blocks) :
    ∃ s', processLines s ls = .ok s' ∧ s'.InRun start runs blocks := by
  induction hls generalizing s with
  | nil => exact ⟨s, rfl, h⟩
  | cons hline _ ih =>
      obtain ⟨hfirst, hrest⟩ := List.forall_mem_cons.mp hcut
      obtain ⟨format, targets, hfields, hformat, hcpu⟩ := fieldsOf_of_mem_take hfirst
      have hkeyword := Block.keyword_mem (List.mem_of_mem_take hfirst)
      have hstep := processLine_fields hline hkeyword hfields hformat s
      rw [if_neg hcpu] at hstep
      rw [processLines_cons hstep]
      exact ih hrest (h.filled targets _)

theorem processLines_blocks {start : ℕ} {runs : List (List Block)} {blocks : List Block}
    {full : List (List (List Char))}
    (hfull : List.Forall₂ (fun b => List.Forall₂ IsLine b.lines) blocks full) {s : ReadState}
    {done : List Block} (h : s.InRun start runs done) :
    ∃ s', processLines s full.flatten = .ok s' ∧ s'.InRun start runs (done ++ blocks) := by
  induction hfull generalizing s done with
  | nil => exact ⟨s, rfl, (List.append_nil done).symm ▸ h⟩
  | @cons b ls blocks full hblock _ ih =>
      obtain ⟨s₁, hs₁, hin⟩ := processLines_block h hblock
      obtain ⟨s', hs', hin'⟩ := ih hin
      rw [List.append_assoc, List.singleton_append] at hin'
      exact ⟨s', by rw [List.flatten_cons, processLines_append hs₁, hs'], hin'⟩

/-- A run adds its list, whatever part of a block it ends with. -/
theorem processLines_run {blocks : List Block} {ls : List (List Char)} (hrun : IsRun blocks ls)
    {s : ReadState} {runs : List (List Block)} (h : s.Parsed runs)
    (hroom : runs.length < maxRuns) :
    ∃ s', processLines s ls = .ok s' ∧ s'.Parsed (runs ++ [blocks]) := by
  obtain ⟨full, last, n, cut, hfull, hn, hcut, rfl⟩ := hrun
  obtain ⟨s₁, hs₁, hin₁⟩ := processLine_header h hroom
  obtain ⟨s₂, hs₂, hin₂⟩ := processLines_blocks hfull hin₁
  have htake : ∀ content ∈ last.lines.take n, content ∈ last.lines.take 3 := fun content hmem =>
    List.mem_of_mem_take (List.take_take ▸ (Nat.min_eq_left (Nat.le_of_lt_succ hn)).symm ▸ hmem)
  obtain ⟨s₃, hs₃, hin₃⟩ := processLines_cut hcut htake hin₂
  refine ⟨s₃, ?_, hin₃.parsed⟩
  rw [processLines_cons hs₁, processLines_append hs₂, hs₃]

theorem processLines_runs {runs : List (List Block)} {ls : List (List (List Char))}
    (hruns : List.Forall₂ IsRun runs ls) {s : ReadState} {done : List (List Block)}
    (h : s.Parsed done) (hroom : done.length + runs.length ≤ maxRuns) :
    ∃ s', processLines s ls.flatten = .ok s' ∧ s'.Parsed (done ++ runs) := by
  induction hruns generalizing s done with
  | nil => exact ⟨s, rfl, (List.append_nil done).symm ▸ h⟩
  | @cons blocks run runs ls hrun _ ih =>
      rw [List.length_cons] at hroom
      obtain ⟨s₁, hs₁, hparsed⟩ := processLines_run hrun h (by omega)
      have hroom' : (done ++ [blocks]).length + runs.length ≤ maxRuns := by
        rw [List.length_append, List.length_singleton]
        omega
      obtain ⟨s', hs', hparsed'⟩ := ih hparsed hroom'
      rw [List.append_assoc, List.singleton_append] at hparsed'
      exact ⟨s', by rw [List.flatten_cons, processLines_append hs₁, hs'], hparsed'⟩

/-- What holds of the lines of each part holds of the lines of all parts. -/
theorem forall_mem_flatten {α β : Type*} {R : α → List β → Prop} {P : β → Prop}
    (hR : ∀ a l, R a l → ∀ x ∈ l, P x) {as : List α} {ls : List (List β)}
    (h : List.Forall₂ R as ls) : ∀ x ∈ ls.flatten, P x := by
  induction h with
  | nil => exact fun _ hx => absurd hx List.not_mem_nil
  | cons hfirst _ ih =>
      rw [List.flatten_cons]
      exact List.forall_mem_append.mpr ⟨hR _ _ hfirst, ih⟩

theorem wholeLine_of_lines {b : Block} {contents : List (String × List Value)}
    {ls : List (List Char)} (hls : List.Forall₂ IsLine contents ls)
    (hmem : ∀ content ∈ contents, content ∈ b.lines) :
    ∀ line ∈ ls, WholeLine maxLineLength line := by
  induction hls with
  | nil => exact fun _ hline => absurd hline List.not_mem_nil
  | cons hline _ ih =>
      obtain ⟨hfirst, hrest⟩ := List.forall_mem_cons.mp hmem
      exact List.forall_mem_cons.mpr ⟨hline.wholeLine (Block.keyword_mem hfirst), ih hrest⟩

/-- `fgets` gets the lines of a run whole. -/
theorem IsRun.wholeLine {blocks : List Block} {ls : List (List Char)} (h : IsRun blocks ls) :
    ∀ line ∈ ls, WholeLine maxLineLength line := by
  obtain ⟨full, last, n, cut, hfull, -, hcut, rfl⟩ := h
  refine List.forall_mem_cons.mpr ⟨header_wholeLine, List.forall_mem_append.mpr ⟨?_, ?_⟩⟩
  · exact forall_mem_flatten (fun b ls hls => wholeLine_of_lines hls fun _ hmem => hmem) hfull
  · exact wholeLine_of_lines hcut fun _ hmem => List.mem_of_mem_take hmem

/-- The parser reads the runs of a database. -/
theorem readDbFile_parsed {runs : List (List Block)} {text : List Char}
    (h : IsDatabase runs text) (hroom : runs.length ≤ maxRuns) (aNewPoint : Cell Node) :
    ∃ s, readDbFile aNewPoint text = .ok s ∧ s.Parsed runs := by
  obtain ⟨ls, hruns, rfl⟩ := h
  have hwhole : ∀ line ∈ ls.flatten, WholeLine maxLineLength line :=
    forall_mem_flatten (fun _ _ hrun => hrun.wholeLine) hruns
  have hinitial : (ReadState.initial aNewPoint).Parsed [] := .nil
  obtain ⟨s, hs, hparsed⟩ := processLines_runs hruns hinitial (by simpa using hroom)
  exact ⟨s, by rw [readDbFile, lines_flatten one_lt_maxLineLength hwhole, hs], hparsed⟩

/-- The list of each run, from head to tail, has the complete blocks in their
order. -/
theorem readDbFile_nodes {runs : List (List Block)} {text : List Char}
    (h : IsDatabase runs text) (hroom : runs.length ≤ maxRuns) (aNewPoint : Cell Node) :
    ∃ s, readDbFile aNewPoint text = .ok s ∧ s.currRun = runs.length ∧
      ∀ (i : ℕ) (blocks : List Block), runs[i]? = some blocks → ∃ (l : LinkedList) (nodes : List Node),
        s.inputDatapoints[i]? = some l ∧ l.Reads s.heap nodes ∧
          List.Forall₂ (Node.IsOf storedInt storedDouble) nodes blocks := by
  obtain ⟨s, hs, hparsed⟩ := readDbFile_parsed h hroom aNewPoint
  refine ⟨s, hs, hparsed.length_eq, fun i blocks hi => ?_⟩
  have hlength : i < s.inputDatapoints.length := by
    rw [hparsed.length_eq]
    exact (List.getElem?_eq_some_iff.mp hi).1
  obtain ⟨hlt, rfl⟩ := List.getElem?_eq_some_iff.mp hi
  obtain ⟨nodes, hholds, hblocks, -⟩ := hparsed.get hlength hlt
  exact ⟨_, _, List.getElem?_eq_getElem hlength, hholds.reads,
    List.forall₂_map_left_iff.mpr hblocks⟩

/-- Integers that fit are stored as they are. -/
theorem Block.Fits.isOf {p : Node} {b : Block} (hb : b.Fits) (h : p.IsOf storedInt storedDouble b) :
    p.IsOf id storedDouble b where
  key := h.key
  int := fun f => (h.int f).trans (storedInt_of_mem (hb.int f).1 (hb.int f).2)
  cpu := h.cpu

theorem forall₂_isOf_id {nodes : List Node} {blocks : List Block}
    (h : List.Forall₂ (Node.IsOf storedInt storedDouble) nodes blocks)
    (hfits : ∀ b ∈ blocks, b.Fits) : List.Forall₂ (Node.IsOf id storedDouble) nodes blocks := by
  induction h with
  | nil => exact .nil
  | cons hfirst _ ih =>
      obtain ⟨hb, hrest⟩ := List.forall_mem_cons.mp hfits
      exact .cons (hb.isOf hfirst) (ih hrest)

/-- **Database parsing.**  From a database whose numbers fit into the fields
`read_db_file` gets its runs: the list of each, from head to tail, has the
complete blocks in their order. -/
theorem readDbFile_holds {runs : List (List Block)} {text : List Char}
    (h : IsDatabase runs text) (hroom : runs.length ≤ maxRuns)
    (hfits : ∀ blocks ∈ runs, ∀ b ∈ blocks, b.Fits) (aNewPoint : Cell Node) :
    ∃ s, readDbFile aNewPoint text = .ok s ∧ s.currRun = runs.length ∧
      ∀ (i : ℕ) (blocks : List Block), runs[i]? = some blocks → ∃ (l : LinkedList) (nodes : List Node),
        s.inputDatapoints[i]? = some l ∧ l.Reads s.heap nodes ∧
          List.Forall₂ (Node.IsOf id storedDouble) nodes blocks := by
  obtain ⟨s, hs, hcurr, hlists⟩ := readDbFile_nodes h hroom aNewPoint
  refine ⟨s, hs, hcurr, fun i blocks hi => ?_⟩
  obtain ⟨l, nodes, hl, hreads, hblocks⟩ := hlists i blocks hi
  exact ⟨l, nodes, hl, hreads, forall₂_isOf_id hblocks (hfits blocks (List.mem_of_getElem? hi))⟩

/-! A run with one block of zeros, but for one number, and the first line of
another block. -/

theorem isDigit_zero : ∀ c ∈ ['0'], c.isDigit = true := List.forall_mem_singleton.mpr rfl

def zeroInt : IntNumeral := ⟨.none, ['0'], isDigit_zero, List.cons_ne_nil _ _⟩

def zeroDouble : DoubleNumeral :=
  ⟨.none, ['0'], some ['0'], none, isDigit_zero, isDigit_zero, List.cons_ne_nil _ _,
    DoubleNumeral.isMarker_none⟩

/-- The block with `memUsed`, and zeros. -/
def blockOf (memUsed : IntNumeral) : Block where
  key := zeroDouble.value
  int f := if f = .memUsed then memUsed.value else zeroInt.value
  cpu _ := zeroDouble.value
  memTotal := zeroInt.value
  swapTotal := zeroInt.value

def zeroBlock : Block := blockOf zeroInt

def lineOf (keyword : String) (ns : List Numeral) : List Char :=
  keyword.toList ++ ':' :: (plainText ns ++ ['\n'])

def memoryNumerals (memUsed : IntNumeral) : List Numeral :=
  .int zeroInt :: .int memUsed :: List.replicate 4 (.int zeroInt)

def linesOf (memUsed : IntNumeral) : List (List Char) :=
  [lineOf "Datapoint" [.double zeroDouble, .int zeroInt],
   lineOf "Memory" (memoryNumerals memUsed),
   lineOf "Swap" (List.replicate 3 (.int zeroInt)),
   lineOf "CPU" (List.replicate 6 (.double zeroDouble))]

def zeroLines : List (List Char) := linesOf zeroInt

theorem isLine_lineOf {keyword : String} {ns : List Numeral} (hbody : '\n' ∉ plainText ns)
    (hlength : (lineOf keyword ns).length < maxLineLength) :
    IsLine (keyword, ns.map Numeral.value) (lineOf keyword ns) :=
  ⟨plainText ns, rfl, hbody, numerals_plainText ns, hlength⟩

theorem isLine_linesOf {memUsed : IntNumeral} (hbody : '\n' ∉ plainText (memoryNumerals memUsed))
    (hlength : (lineOf "Memory" (memoryNumerals memUsed)).length < maxLineLength) :
    List.Forall₂ IsLine (blockOf memUsed).lines (linesOf memUsed) :=
  .cons (isLine_lineOf (by decide) (by decide)) <|
  .cons (isLine_lineOf hbody hlength) <|
  .cons (isLine_lineOf (by decide) (by decide)) <|
  .cons (isLine_lineOf (by decide) (by decide)) .nil

theorem isLine_zeroLines : List.Forall₂ IsLine zeroBlock.lines zeroLines :=
  isLine_linesOf (by decide) (by decide)

theorem isDatabase_linesOf {memUsed : IntNumeral}
    (h : List.Forall₂ IsLine (blockOf memUsed).lines (linesOf memUsed)) :
    IsDatabase [[blockOf memUsed]]
      (newActiveMachine.toList :: (linesOf memUsed ++ zeroLines.take 1)).flatten := by
  refine ⟨[newActiveMachine.toList :: (linesOf memUsed ++ zeroLines.take 1)], .cons ?_ .nil, ?_⟩
  · exact ⟨[linesOf memUsed], zeroBlock, 1, zeroLines.take 1, .cons h .nil, by decide,
      List.forall₂_take 1 isLine_zeroLines, rfl⟩
  · rw [List.flatten_singleton]

theorem fits_zeroBlock : zeroBlock.Fits where
  key := by decide +kernel
  int := by intro f; cases f <;> decide
  cpu := by intro f; cases f <;> decide +kernel

theorem readDbFile_holds_zero :
    ∃ s, readDbFile ⟨.zero, none⟩
        (newActiveMachine.toList :: (zeroLines ++ zeroLines.take 1)).flatten = .ok s ∧
      s.currRun = 1 ∧
      ∀ (i : ℕ) (blocks : List Block), [[zeroBlock]][i]? = some blocks →
        ∃ (l : LinkedList) (nodes : List Node),
          s.inputDatapoints[i]? = some l ∧ l.Reads s.heap nodes ∧
            List.Forall₂ (Node.IsOf id storedDouble) nodes blocks :=
  readDbFile_holds (isDatabase_linesOf isLine_zeroLines) (by decide)
    (List.forall_mem_singleton.mpr (List.forall_mem_singleton.mpr fits_zeroBlock)) ⟨.zero, none⟩

theorem isDigit_great :
    ∀ c ∈ ['4', '2', '9', '4', '9', '6', '7', '3', '0', '1'], c.isDigit = true :=
  List.all_eq_true.mp rfl

/-- `2 ^ 32 + 5`. -/
def greatInt : IntNumeral :=
  ⟨.none, ['4', '2', '9', '4', '9', '6', '7', '3', '0', '1'], isDigit_great, List.cons_ne_nil _ _⟩

/-- The field has 5. -/
theorem overflow_differs :
    ¬ ∃ s, readDbFile ⟨.zero, none⟩
        (newActiveMachine.toList :: (linesOf greatInt ++ zeroLines.take 1)).flatten = .ok s ∧
      s.currRun = 1 ∧
      ∀ (i : ℕ) (blocks : List Block), [[blockOf greatInt]][i]? = some blocks →
        ∃ (l : LinkedList) (nodes : List Node),
          s.inputDatapoints[i]? = some l ∧ l.Reads s.heap nodes ∧
            List.Forall₂ (Node.IsOf id id) nodes blocks := by
  rintro ⟨s, hs, -, hlists⟩
  have hlines : List.Forall₂ IsLine (blockOf greatInt).lines (linesOf greatInt) :=
    isLine_linesOf (by decide +kernel) (by decide +kernel)
  obtain ⟨s', hs', -, hlists'⟩ :=
    readDbFile_nodes (isDatabase_linesOf hlines) (by decide) ⟨.zero, none⟩
  obtain rfl : s = s' := Except.ok.inj (hs.symm.trans hs')
  obtain ⟨l, nodes, hl, hreads, hnodes⟩ := hlists 0 _ rfl
  obtain ⟨l', nodes', hl', hreads', hnodes'⟩ := hlists' 0 _ rfl
  obtain rfl : l = l' := Option.some.inj (hl.symm.trans hl')
  obtain rfl : nodes = nodes' := hreads.eq hreads'
  obtain ⟨p, _, hp, -, rfl⟩ := List.forall₂_cons_right_iff.mp hnodes
  obtain ⟨hp', -⟩ := List.forall₂_cons.mp hnodes'
  have hfields : id greatInt.value = storedInt greatInt.value :=
    (hp.int .memUsed).symm.trans (hp'.int .memUsed)
  exact absurd hfields (by decide +kernel)

end A2PM.ModelBuild
