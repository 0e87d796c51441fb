/-
A2PM/Connections.lean

The controllers file, as `initialize_broadcast` of `controller/broadcast.c`
and `initialize_leader` of `controller/leader.c` read it.

Both go through it with `fgets`; the first one stores a connection for each
line, the second one counts.  The address of a connection is its line without
the last character, which is taken to be the line end, and the tables have
`MAX_CONTROLLERS` elements (`initializeBroadcast_iff`).
-/
import A2PM.LeaderElection
import A2PM.MessageStream
import A2PM.TextInput

namespace A2PM.Broadcast

open MessageStream TextInput
open Leader (maxControllers)

/-! ### The tables -/

abbrev nul : Char := Char.ofNat 0

/-- `struct ip_socket_receiver`. -/
structure Connection where
  /-- `char ip[16]`. -/
  ip : Block Char 16
  socket : ℤ
  value : ℤ

/-- The string in `ip`. -/
def Connection.host (c : Connection) : List Char := cString c.ip.val

/-- The static variables that `initialize_broadcast` fills in. -/
structure Connections where
  connections : ℕ → Connection
  controllersSockets : ℕ → ℤ
  lastControllerSocket : ℕ

namespace Connections

/-- Zero, as static variables are. -/
def initial : Connections where
  connections := fun _ => ⟨fill 16 nul, 0, 0⟩
  controllersSockets := fun _ => 0
  lastControllerSocket := 0

/-- The addresses of the connections. -/
def hosts (s : Connections) : List (List Char) :=
  (List.range s.lastControllerSocket).map fun i => (s.connections i).host

end Connections

/-! ### Reading the file -/

/-- `strncpy`, of `n` characters; `none` where it stores behind `dest`. -/
def strncpy {m : ℕ} (dest : Block Char m) (src : List Char) (n : ℕ) : Option (Block Char m) :=
  let src := cString src
  if n ≤ m then some (receive dest (src.take n ++ List.replicate (n - src.length) nul)) else none

/-- `strlen(line)-1`, which is a `size_t`. -/
def lengthWithoutEnd (line : List Char) : ℕ := ((cString line).length + (2 ^ 64 - 1)) % 2 ^ 64

/-- The body of the `do` loop, with the socket that `make_connection` has
returned. -/
def storeConnection (s : Connections) (i : ℕ) (line : List Char) (socket : ℤ) :
    Option Connections :=
  -- the source does not compare: it stores at `i` in any case
  if i < maxControllers then
    (strncpy (s.connections i).ip line (lengthWithoutEnd line)).map fun ip =>
      { s with
        connections := Function.update s.connections i { s.connections i with
          ip := ip
          socket := socket }
        controllersSockets := Function.update s.controllersSockets i socket }
  else none

/-- The loop over the lines, with what the calls of `make_connection` return in
turn: the variables, and `i`. -/
def storeLines (s : Connections) (i : ℕ) :
    List (List Char) → List ℤ → Option (Connections × ℕ)
  | [], _ => some (s, i)
  | _ :: _, [] => none
  | line :: lines, socket :: sockets =>
      (storeConnection s i line socket).bind fun s =>
        -- `while(connections[i].socket < 0)`
        if socket < 0 then storeLines s i (line :: lines) sockets
        else storeLines s (i + 1) lines sockets

/-- The size of `line`. -/
abbrev lineSize : ℕ := 128

theorem one_lt_lineSize : 1 < lineSize := by decide

/-- `initialize_broadcast`. -/
def initializeBroadcast (text : List Char) (sockets : List ℤ) : Option Connections :=
  (storeLines .initial 0 (lines lineSize one_lt_lineSize text) sockets).map fun r =>
    { r.1 with lastControllerSocket := r.2 }

/-- `controllers`, an `unsigned int`, after `initialize_leader`. -/
def countControllers (text : List Char) : ℕ :=
  (lines lineSize one_lt_lineSize text).length % 2 ^ 32

/-! ### The text of a controllers file -/

/-- One to three digits. -/
def IsGroup (group : List Char) : Prop :=
  group ≠ [] ∧ group.length ≤ 3 ∧ ∀ c ∈ group, c.isDigit = true

/-- Four groups with dots between them. -/
def IsAddress (address : List Char) : Prop :=
  ∃ a b c d, IsGroup a ∧ IsGroup b ∧ IsGroup c ∧ IsGroup d ∧
    address = a ++ '.' :: (b ++ '.' :: (c ++ '.' :: d))

/-- The addresses, each with a line end behind it. -/
def endedLines (addresses : List (List Char)) : List (List Char) :=
  addresses.map fun address => address ++ ['\n']

/-- A line for each address; the last one may have no line end. -/
def IsControllersFile (addresses : List (List Char)) (text : List Char) : Prop :=
  (∀ address ∈ addresses, IsAddress address) ∧
    (text = (endedLines addresses).flatten ∨
      ∃ before last, addresses = before ++ [last] ∧
        text = (endedLines before).flatten ++ last)

theorem IsGroup.char_ne {group : List Char} (h : IsGroup group) {c : Char}
    (hc : c.isDigit = false) : c ∉ group := by
  intro hmem
  rw [h.2.2 c hmem] at hc
  cases hc

theorem IsAddress.char_ne {address : List Char} (h : IsAddress address) {c : Char}
    (hc : c.isDigit = false) (hdot : c ≠ '.') : c ∉ address := by
  obtain ⟨a, b, d, e, ha, hb, hd, he, rfl⟩ := h
  simp only [List.mem_append, List.mem_cons, not_or]
  exact ⟨ha.char_ne hc, hdot, hb.char_ne hc, hdot, hd.char_ne hc, hdot, he.char_ne hc⟩

theorem IsAddress.ne_nil {address : List Char} (h : IsAddress address) : address ≠ [] := by
  obtain ⟨a, b, d, e, -, -, -, -, rfl⟩ := h
  exact List.append_ne_nil_of_right_ne_nil _ (List.cons_ne_nil _ _)

theorem IsAddress.length_le {address : List Char} (h : IsAddress address) :
    address.length ≤ 15 := by
  obtain ⟨a, b, d, e, ha, hb, hd, he, rfl⟩ := h
  have := ha.2.1
  have := hb.2.1
  have := hd.2.1
  have := he.2.1
  simp only [List.length_append, List.length_cons]
  omega

/-! ### One line -/

/-- The first characters of a string, copied over null characters. -/
theorem exists_strncpy {m n : ℕ} {src : List Char} (hm : n ≤ m) (hn : n ≤ src.length)
    (hstring : nul ∉ src) :
    ∃ dest : Block Char m, strncpy (fill m nul) src n = some dest ∧
      cString dest.val = src.take n := by
  refine ⟨receive (fill m nul) (src.take n), ?_, ?_⟩
  · have hpad : List.replicate (n - src.length) nul = [] := by
      rw [Nat.sub_eq_zero_of_le hn]
      rfl
    rw [strncpy, cString_eq hstring, if_pos hm, hpad, List.append_nil]
  · have hlength : (src.take n).length = n := List.length_take_of_le hn
    show cString ((src.take n ++ (List.replicate m nul).drop (src.take n).length).take m) = _
    rw [hlength, List.drop_replicate, List.take_of_length_le]
    · exact cString_padded (fun hmem => hstring (List.mem_of_mem_take hmem)) (m - n)
    · rw [List.length_append, hlength, List.length_replicate, Nat.add_sub_of_le hm]

/-- A line that is a string, and not too long for `ip` without its last
character. -/
structure Storable (line : List Char) : Prop where
  ne_nil : line ≠ []
  string : nul ∉ line
  length : line.length ≤ 16

theorem Storable.lengthWithoutEnd_eq {line : List Char} (h : Storable line) :
    lengthWithoutEnd line = line.length - 1 := by
  have hpos := List.length_pos_of_ne_nil h.ne_nil
  have hle := h.length
  rw [lengthWithoutEnd, cString_eq h.string]
  omega

/-- A connection for the line is stored at `i`, if there is one. -/
theorem Storable.storeConnection {line : List Char} (h : Storable line) {s : Connections} {i : ℕ}
    (hi : i < maxControllers) (hzero : (s.connections i).ip = fill 16 nul) (socket : ℤ) :
    ∃ s', Broadcast.storeConnection s i line socket = some s' ∧
      (s'.connections i).host = line.dropLast ∧
      ∀ k, k ≠ i → s'.connections k = s.connections k := by
  have hlength : line.length - 1 ≤ 16 := (Nat.sub_le _ _).trans h.length
  obtain ⟨ip, hip, hhost⟩ := exists_strncpy hlength (Nat.sub_le _ _) h.string
  refine ⟨{ s with
    connections := Function.update s.connections i ⟨ip, socket, (s.connections i).value⟩
    controllersSockets := Function.update s.controllersSockets i socket }, ?_, ?_, ?_⟩
  · rw [Broadcast.storeConnection, if_pos hi, hzero, h.lengthWithoutEnd_eq, hip]
    rfl
  · show (Function.update s.connections i ⟨ip, socket, (s.connections i).value⟩ i).host = _
    rw [Function.update_self, List.dropLast_eq_take]
    exact hhost
  · exact fun k hk => Function.update_of_ne hk ..

/-! ### All lines -/

/-- From `i` on, nothing has been stored. -/
def ClearFrom (s : Connections) (i : ℕ) : Prop :=
  ∀ k, i ≤ k → (s.connections k).ip = fill 16 nul

/-- As many lines as there is room for, with as many sockets. -/
theorem exists_storeLines {ls : List (List Char)} (hls : ∀ line ∈ ls, Storable line)
    {sockets : List ℤ} (hsockets : ∀ socket ∈ sockets, 0 ≤ socket)
    (hcalls : ls.length ≤ sockets.length) {s : Connections} {i : ℕ}
    (hroom : i + ls.length ≤ maxControllers) (hclear : ClearFrom s i) :
    ∃ s', storeLines s i ls sockets = some (s', i + ls.length) ∧
      (List.range' i ls.length).map (fun k => (s'.connections k).host) = ls.map List.dropLast ∧
      ∀ k < i, s'.connections k = s.connections k := by
  induction ls generalizing s i sockets with
  | nil => exact ⟨s, by rw [storeLines]; rfl, rfl, fun _ _ => rfl⟩
  | cons line ls ih =>
      obtain ⟨hline, hrest⟩ := List.forall_mem_cons.mp hls
      rw [List.length_cons] at hcalls hroom
      cases sockets with
      | nil => cases hcalls
      | cons socket sockets =>
          obtain ⟨hsocket, hsockets⟩ := List.forall_mem_cons.mp hsockets
          obtain ⟨s₁, hs₁, hhost, hframe⟩ :=
            hline.storeConnection (by omega) (hclear i (Nat.le_refl i)) socket
          have hclear₁ : ClearFrom s₁ (i + 1) := by
            intro k hk
            rw [hframe k (Nat.ne_of_gt hk)]
            exact hclear k (Nat.le_of_succ_le hk)
          obtain ⟨s', hs', hhosts, hkept⟩ := ih hrest hsockets (Nat.le_of_succ_le_succ hcalls)
            (s := s₁) (i := i + 1) (by omega) hclear₁
          refine ⟨s', ?_, ?_, ?_⟩
          · rw [storeLines, hs₁, Option.bind_some, if_neg (not_lt.mpr hsocket), hs',
              List.length_cons, Nat.add_right_comm, Nat.add_assoc]
          · rw [List.length_cons, List.range'_succ, List.map_cons, List.map_cons, hhosts,
              hkept i (Nat.lt_succ_self i), hhost]
          · intro k hk
            rw [hkept k (Nat.lt_succ_of_lt hk), hframe k (Nat.ne_of_lt hk)]

/-- More lines than that are stored behind the tables. -/
theorem storeLines_eq_none {ls : List (List Char)} {sockets : List ℤ}
    (hsockets : ∀ socket ∈ sockets, 0 ≤ socket) {s : Connections} {i : ℕ}
    (hroom : i ≤ maxControllers) (hmany : maxControllers < i + ls.length) :
    storeLines s i ls sockets = none := by
  induction ls generalizing s i sockets with
  | nil => exact absurd hmany (Nat.not_lt.mpr hroom)
  | cons line ls ih =>
      cases sockets with
      | nil => rw [storeLines]
      | cons socket sockets =>
          obtain ⟨hsocket, hsockets⟩ := List.forall_mem_cons.mp hsockets
          rw [storeLines, Option.bind_eq_none_iff]
          intro s₁ hs₁
          rw [if_neg (not_lt.mpr hsocket)]
          rw [List.length_cons] at hmany
          refine ih hsockets ?_ (by omega)
          rw [storeConnection, Option.ite_none_right_eq_some] at hs₁
          exact hs₁.1

/-! ### The file -/

/-- The addresses are those of the connections, and both counts are theirs. -/
structure Connected (addresses : List (List Char)) (text : List Char) (s : Connections) :
    Prop where
  hosts : s.hosts = addresses
  lastControllerSocket : s.lastControllerSocket = addresses.length
  controllers : countControllers text = addresses.length

/-- What `initialize_broadcast` makes of the lines of a file. -/
theorem exists_initializeBroadcast {ls : List (List Char)} {text : List Char}
    (hlines : lines lineSize one_lt_lineSize text = ls) (hls : ∀ line ∈ ls, Storable line)
    {sockets : List ℤ} (hsockets : ∀ socket ∈ sockets, 0 ≤ socket)
    (hcalls : ls.length ≤ sockets.length) (hroom : ls.length ≤ maxControllers) :
    ∃ s, initializeBroadcast text sockets = some s ∧ s.lastControllerSocket = ls.length ∧
      s.hosts = ls.map List.dropLast := by
  have hclear : ClearFrom .initial 0 := fun _ _ => rfl
  obtain ⟨s, hs, hhosts, -⟩ :=
    exists_storeLines hls hsockets hcalls ((Nat.zero_add _).symm ▸ hroom) hclear
  rw [Nat.zero_add] at hs
  refine ⟨{ s with lastControllerSocket := ls.length }, ?_, rfl, ?_⟩
  · rw [initializeBroadcast, hlines, hs]
    rfl
  · rw [← hhosts, Connections.hosts, List.range_eq_range']

theorem IsAddress.wholeLine {address : List Char} (h : IsAddress address) :
    WholeLine lineSize (address ++ ['\n']) := by
  refine ⟨address, rfl, h.char_ne rfl (by decide), ?_⟩
  rw [List.length_append, List.length_singleton]
  exact (Nat.succ_le_succ h.length_le).trans_lt (by decide)

/-- An address, with a line end or without it. -/
theorem IsAddress.storable {address ending : List Char} (h : IsAddress address)
    (hending : ending = [] ∨ ending = ['\n']) : Storable (address ++ ending) := by
  have hle := h.length_le
  have hnul : nul ∉ address := h.char_ne (by decide) (by decide)
  constructor
  · exact List.append_ne_nil_of_left_ne_nil h.ne_nil _
  · rcases hending with rfl | rfl
    · rwa [List.append_nil]
    · rw [List.mem_append, List.mem_singleton]
      exact not_or_intro hnul (by decide)
  · rw [List.length_append]
    rcases hending with rfl | rfl
    · exact hle.trans (by decide)
    · exact Nat.succ_le_succ hle

theorem storable_endedLines {addresses : List (List Char)}
    (h : ∀ address ∈ addresses, IsAddress address) :
    ∀ line ∈ endedLines addresses, WholeLine lineSize line ∧ Storable line := by
  rw [endedLines, List.forall_mem_map]
  exact fun address haddress =>
    ⟨(h address haddress).wholeLine, (h address haddress).storable (.inr rfl)⟩

theorem map_dropLast_endedLines (addresses : List (List Char)) :
    (endedLines addresses).map List.dropLast = addresses := by
  rw [endedLines, List.map_map]
  exact List.map_id'' (fun address => List.dropLast_concat) addresses

/-- The lines of a file, and what is left of them without their last
characters. -/
theorem IsControllersFile.exists_lines {addresses : List (List Char)} {text : List Char}
    (h : IsControllersFile addresses text) :
    ∃ ls, lines lineSize one_lt_lineSize text = ls ∧ (∀ line ∈ ls, Storable line) ∧
      ls.length = addresses.length ∧
      (ls.map List.dropLast = addresses ↔ text = (endedLines addresses).flatten) := by
  obtain ⟨haddresses, rfl | ⟨before, last, rfl, rfl⟩⟩ := h
  · have hlines := storable_endedLines haddresses
    refine ⟨endedLines addresses,
      lines_flatten one_lt_lineSize fun line hline => (hlines line hline).1,
      fun line hline => (hlines line hline).2, List.length_map _, ?_⟩
    exact iff_of_true (map_dropLast_endedLines addresses) rfl
  · obtain ⟨hbefore, hlast⟩ := List.forall_mem_append.mp haddresses
    rw [List.forall_mem_singleton] at hlast
    have hlines := storable_endedLines hbefore
    have hstorable := hlast.storable (.inl rfl)
    rw [List.append_nil] at hstorable
    refine ⟨endedLines before ++ [last], ?_, ?_, ?_, ?_⟩
    · rw [lines_flatten_append one_lt_lineSize fun line hline => (hlines line hline).1,
        lines_last one_lt_lineSize hlast.ne_nil (hlast.char_ne rfl (by decide))
          (hlast.length_le.trans_lt (by decide))]
    · exact List.forall_mem_append.mpr
        ⟨fun line hline => (hlines line hline).2, List.forall_mem_singleton.mpr hstorable⟩
    · rw [List.length_append, List.length_append, endedLines, List.length_map]
    -- the last character of the last address is lost
    · refine iff_of_false (fun heq => ?_) (fun heq => ?_)
      · rw [List.map_append, map_dropLast_endedLines, List.append_cancel_left_eq] at heq
        have hlength := congrArg List.length (List.singleton_inj.mp heq)
        have hpos := List.length_pos_of_ne_nil hlast.ne_nil
        rw [List.length_dropLast] at hlength
        omega
      · rw [endedLines, endedLines, List.map_append, List.flatten_append,
          List.append_cancel_left_eq, List.map_singleton, List.flatten_singleton] at heq
        exact List.cons_ne_nil _ _ (List.self_eq_append_right.mp heq)

/-- **Reading the controllers file.**  From a file of addresses, and if
`make_connection` succeeds, all of them are stored and counted iff the tables
have room for them and the last line has its end, too. -/
theorem initializeBroadcast_iff (addresses : List (List Char)) (text : List Char)
    (hfile : IsControllersFile addresses text) (sockets : List ℤ)
    (hsockets : ∀ socket ∈ sockets, 0 ≤ socket) (hcalls : addresses.length ≤ sockets.length) :
    (∃ s, initializeBroadcast text sockets = some s ∧ Connected addresses text s) ↔
      addresses.length ≤ maxControllers ∧ text = (endedLines addresses).flatten := by
  obtain ⟨ls, hlines, hls, hlength, hended⟩ := hfile.exists_lines
  rw [← hlength] at hcalls ⊢
  rcases Nat.lt_or_ge maxControllers ls.length with hmany | hroom
  · refine iff_of_false ?_ fun h => absurd h.1 (Nat.not_le.mpr hmany)
    rintro ⟨s, hs, -⟩
    rw [initializeBroadcast, hlines, storeLines_eq_none hsockets (Nat.zero_le _)
      (hmany.trans_eq (Nat.zero_add _).symm)] at hs
    cases hs
  · obtain ⟨s, hs, hlast, hhosts⟩ := exists_initializeBroadcast hlines hls hsockets hcalls hroom
    rw [hs, ← hended]
    constructor
    · rintro ⟨s', hs', hconnected⟩
      obtain rfl := Option.some.inj hs'
      exact ⟨hroom, hhosts.symm.trans hconnected.hosts⟩
    · rintro ⟨-, heq⟩
      refine ⟨s, rfl, hhosts.trans heq, hlast.trans hlength, ?_⟩
      rw [countControllers, hlines, Nat.mod_eq_of_lt, hlength]
      exact hroom.trans_lt (by decide)

/-- The address 10.0.0.1. -/
def firstAddress : List Char := ['1', '0', '.', '0', '.', '0', '.', '1']

theorem isAddress_firstAddress : IsAddress firstAddress := by
  have hdigit (c : Char) (hc : c.isDigit = true) : IsGroup [c] :=
    ⟨List.cons_ne_nil _ _, Nat.le_add_left 1 2, List.forall_mem_singleton.mpr hc⟩
  have hten : IsGroup ['1', '0'] :=
    ⟨List.cons_ne_nil _ _, by decide,
      List.forall_mem_cons.mpr ⟨rfl, List.forall_mem_singleton.mpr rfl⟩⟩
  exact ⟨['1', '0'], ['0'], ['0'], ['1'], hten, hdigit '0' rfl, hdigit '0' rfl, hdigit '1' rfl, rfl⟩

theorem initializeBroadcast_iff_firstAddress :
    ∃ s, initializeBroadcast (firstAddress ++ ['\n']) [3] = some s ∧
      Connected [firstAddress] (firstAddress ++ ['\n']) s := by
  refine (initializeBroadcast_iff [firstAddress] (firstAddress ++ ['\n']) ⟨?_, .inl rfl⟩ [3] ?_
    (Nat.le_refl 1)).mpr ⟨by decide, rfl⟩
  · exact List.forall_mem_singleton.mpr isAddress_firstAddress
  · exact List.forall_mem_singleton.mpr (by decide)

/-- The only line has no end: 10.0.0. is stored. -/
theorem firstAddress_cut :
    ¬ ∃ s, initializeBroadcast firstAddress [3] = some s ∧
      Connected [firstAddress] firstAddress s := by
  have haddress := isAddress_firstAddress
  have hlines : lines lineSize one_lt_lineSize firstAddress = [firstAddress] :=
    lines_last one_lt_lineSize haddress.ne_nil (by decide) (by decide)
  have hstorable : ∀ line ∈ [firstAddress], Storable line :=
    List.forall_mem_singleton.mpr ⟨by decide, by decide, by decide⟩
  have hsockets : ∀ socket ∈ [(3 : ℤ)], 0 ≤ socket := List.forall_mem_singleton.mpr (by decide)
  obtain ⟨s, hs, -, hhosts⟩ :=
    exists_initializeBroadcast hlines hstorable hsockets (Nat.le_refl 1) (by decide)
  rintro ⟨s', hs', hconnected⟩
  obtain rfl := Option.some.inj (hs.symm.trans hs')
  exact absurd (hhosts.symm.trans hconnected.hosts) (by decide)

end A2PM.Broadcast
