import Juos.Machine.Polling

/-!
# Identifying a device

`_get_device_info` selects a controller, sends the command Identify and reads 256 words, polling the
status register in between. A device answers with any sequence of status bytes; what was accessed is
recorded in order, also while a loop is still waiting.

The second loop goes on while `Drq` and `Err` are both set, where it should while neither is, a
device is told apart by two registers that must both differ from zero, and the words are read in
any case. `handshake_iff` says for which answers this is the handshake that the comments describe.
-/

namespace Juos.Ata

open Machine

/-! ## The registers -/

inductive Bus where
  | primary
  | secondary
  deriving DecidableEq, Repr

def Bus.ioBase : Bus → Nat
  | .primary => 0x1F0
  | .secondary => 0x170

def Bus.selectValue : Bus → UInt8
  | .primary => 0xA0
  | .secondary => 0xB0

inductive IoRegister where
  | data
  | lbaLow
  | lbaMid
  | lbaHigh
  /-- reads the status, takes a command -/
  | status
  deriving DecidableEq, Repr

def IoRegister.offset : IoRegister → Nat
  | .data => 0
  | .lbaLow => 3
  | .lbaMid => 4
  | .lbaHigh => 5
  | .status => 7

/-- `IO_REG_OFFSET` -/
def ioRegOffset (reg : IoRegister) (bus : Bus) : Nat := reg.offset + bus.ioBase

/-- `Command::Identify` -/
abbrev identify : UInt8 := 0xEC

/-- The bits of `StatusRegister::flags` -/
def bsy (status : UInt8) : Bool := status.toNat.testBit 7
def rdy (status : UInt8) : Bool := status.toNat.testBit 6
def drq (status : UInt8) : Bool := status.toNat.testBit 3
def err (status : UInt8) : Bool := status.toNat.testBit 0

/-- What a device answers: status bytes in the order in which they are read, its signature, and the
words it has. -/
structure Answers where
  status : Nat → UInt8
  lbaMid : UInt8
  lbaHigh : UInt8
  word : Nat → UInt16

inductive Access where
  | out (port : Nat) (value : UInt8)
  | status (value : UInt8)
  | lbaMid (value : UInt8)
  | lbaHigh (value : UInt8)
  | data (word : UInt16)
  deriving DecidableEq, Repr

/-- How many status bytes were read, and all accesses so far. -/
structure Port where
  next : Nat
  accesses : List Access

namespace Port

def access (p : Port) (a : Access) : Port := { p with accesses := p.accesses ++ [a] }

/-- `READ_BYTE(IoRegister::Status)` -/
def readStatus (d : Answers) (p : Port) : UInt8 × Port :=
  (d.status p.next, ⟨p.next + 1, p.accesses ++ [.status (d.status p.next)]⟩)

/-- The loop that reads the data register 256 times. -/
def readWords (d : Answers) (p : Port) : Port :=
  { p with accesses := p.accesses ++ (List.range 256).map fun i => .data (d.word i) }

end Port

/-! ## Waiting -/

/-- Go on when the wait is over. -/
def andThen {α β : Type} (r : Option α × Port) (f : α → Port → Option β × Port) :
    Option β × Port :=
  match r with
  | (some a, p) => f a p
  | (none, p) => (none, p)

/-- `do { status = READ_BYTE(Status); } while (!done(status))`, with at most `fuel` reads. -/
def readUntil (d : Answers) (done : UInt8 → Bool) : Nat → Port → Option UInt8 × Port
  | 0, p => (none, p)
  | fuel + 1, p =>
    let r := p.readStatus d
    if done r.1 then (some r.1, r.2) else readUntil d done fuel r.2

/-- `while (wait(status)) { status = READ_BYTE(Status); }` -/
def readWhile (d : Answers) (wait : UInt8 → Bool) (status : UInt8) (fuel : Nat) (p : Port) :
    Option UInt8 × Port :=
  if wait status then readUntil d (fun s => !wait s) fuel p else (some status, p)

/-- `COMMAND` -/
def command (d : Answers) (bus : Bus) (cmd : UInt8) (fuel : Nat) (p : Port) :
    Option UInt8 × Port :=
  andThen (readUntil d (fun s => !bsy s) fuel p) fun _ p =>
    andThen (readUntil d rdy fuel p) fun _ p =>
      let r := (p.access (.out (ioRegOffset .status bus) cmd)).readStatus d
      (some r.1, r.2)

/-! ## The device -/

/-- The fields of `DeviceInfoResult` -/
structure DeviceInfoResult where
  found : Bool
  notAta : Bool
  isHardDisk : Bool
  lba48Supported : Bool
  supportedUdmaModes : UInt16
  conductorCableFound : Bool
  lba28Sectors : Nat
  lba48Sectors : Nat
  deriving DecidableEq, Repr

/-- `{ .found = false }` -/
def DeviceInfoResult.none : DeviceInfoResult := ⟨false, false, false, false, 0, false, 0, 0⟩

/-- `BIT_IS_CLEAR`, which says that the bit `k - 1` is set -/
def bitIsClear (n : UInt16) (k : Nat) : Bool := n.toNat.testBit (k - 1)

def deviceInfo (d : Answers) (bus : Bus) (notAta : Bool) : DeviceInfoResult where
  found := true
  notAta := notAta
  isHardDisk := d.word 0 != 0
  lba48Supported := bitIsClear (d.word 82) 10
  supportedUdmaModes := d.word 88
  conductorCableFound := bus == .primary && bitIsClear (d.word 93) 11
  lba28Sectors := (d.word 60).toNat + 65536 * (d.word 61).toNat
  lba48Sectors := (d.word 100).toNat + 65536 * (d.word 101).toNat +
    4294967296 * (d.word 102).toNat + 281474976710656 * (d.word 103).toNat

/-- The registers that are set before the command. -/
def prepare (bus : Bus) (p : Port) : Port :=
  (((p.access (.out bus.ioBase bus.selectValue)).access (.out (ioRegOffset .lbaLow bus) 0)).access
    (.out (ioRegOffset .lbaMid bus) 0)).access (.out (ioRegOffset .lbaHigh bus) 0)

/-- `READ_BYTE(LBAmid) && READ_BYTE(LBAhigh)` -/
def deviceNotAta (d : Answers) (p : Port) : Bool × Port :=
  let p := p.access (.lbaMid d.lbaMid)
  if d.lbaMid ≠ 0 then (d.lbaHigh != 0, p.access (.lbaHigh d.lbaHigh)) else (false, p)

/-- What happens before the words are read, from the first status after the command on. It returns
`not_ata`. -/
def waitForData (d : Answers) (status : UInt8) (fuel : Nat) (p : Port) : Option Bool × Port :=
  andThen (readWhile d bsy status fuel p) fun status p =>
    let r := deviceNotAta d p
    if r.1 then (some true, r.2)
    else andThen (readWhile d (fun s => drq s && err s) status fuel r.2) fun _ p => (some false, p)

/-- `_get_device_info` -/
def getDeviceInfo (d : Answers) (bus : Bus) (fuel : Nat) (p : Port) :
    Option DeviceInfoResult × Port :=
  andThen (command d bus identify fuel (prepare bus p)) fun _ p =>
    let r := p.readStatus d
    if r.1 ≠ 0 then
      andThen (waitForData d r.1 fuel r.2) fun notAta p =>
        (some (deviceInfo d bus notAta), p.readWords d)
    else (some .none, r.2)

/-! ## What the loops stop at -/

theorem readUntil_stop {d : Answers} {done : UInt8 → Bool} {fuel : Nat} {p : Port}
    (h : done (d.status p.next) = true) :
    readUntil d done (fuel + 1) p = (some (d.status p.next), (p.readStatus d).2) :=
  if_pos h

theorem readUntil_again {d : Answers} {done : UInt8 → Bool} {fuel : Nat} {p : Port}
    (h : done (d.status p.next) ≠ true) :
    readUntil d done (fuel + 1) p = readUntil d done fuel (p.readStatus d).2 :=
  if_neg h

def Access.statusByte : Access → Option UInt8
  | .status s => some s
  | _ => none

/-- The last status byte among the accesses. -/
def lastStatus (accesses : List Access) : Option UInt8 :=
  (accesses.filterMap Access.statusByte).getLast?

/-- No word was read yet, and the status byte before `next` is the last one that was. -/
structure Port.Polling (d : Answers) (p : Port) : Prop where
  no_data : ∀ w, .data w ∉ p.accesses
  last : ∀ i, p.next = i + 1 → lastStatus p.accesses = some (d.status i)

namespace Port.Polling

variable {d : Answers} {p : Port}

theorem access (h : p.Polling d) {a : Access} (hData : ∀ w, a ≠ .data w)
    (hStatus : ∀ s, a ≠ .status s) : (p.access a).Polling d := by
  refine ⟨fun w hMem => ?_, fun i hNext => ?_⟩
  · rcases List.mem_append.mp hMem with hOld | hNew
    · exact h.no_data w hOld
    · exact hData w (List.mem_singleton.mp hNew).symm
  · rw [← h.last i hNext]
    cases a with
    | status s => exact absurd rfl (hStatus s)
    | _ => simp [lastStatus, Port.access, Access.statusByte]

theorem readStatus (h : p.Polling d) : (p.readStatus d).2.Polling d := by
  refine ⟨fun w hMem => ?_, fun i hNext => ?_⟩
  · rcases List.mem_append.mp hMem with hOld | hNew
    · exact h.no_data w hOld
    · cases List.mem_singleton.mp hNew
  · cases hNext
    simp [lastStatus, Port.readStatus, Access.statusByte]

theorem readUntil (h : p.Polling d) (done : UInt8 → Bool) (fuel : Nat) :
    (readUntil d done fuel p).2.Polling d := by
  induction fuel generalizing p with
  | zero => exact h
  | succ fuel ih =>
    by_cases hDone : done (d.status p.next) = true
    · rw [readUntil_stop hDone]
      exact h.readStatus
    · rw [readUntil_again hDone]
      exact ih h.readStatus

theorem prepare (h : p.Polling d) (bus : Bus) : (prepare bus p).Polling d :=
  (((h.access (by simp) (by simp)).access (by simp) (by simp)).access (by simp) (by simp)).access
    (by simp) (by simp)

theorem deviceNotAta (h : p.Polling d) : (deviceNotAta d p).2.Polling d := by
  have hMid := h.access (a := .lbaMid d.lbaMid) (by simp) (by simp)
  rw [Ata.deviceNotAta]
  split_ifs
  · exact hMid.access (by simp) (by simp)
  · exact hMid

end Port.Polling

/-- A loop returns the first status byte that it waits for, and `next` is behind it. -/
theorem readUntil_eq (d : Answers) (done : UInt8 → Bool) (fuel : Nat) (p : Port) :
    (readUntil d done fuel p).1 = (pollFrom done d.status fuel p.next).map d.status ∧
      ∀ j, pollFrom done d.status fuel p.next = some j →
        (readUntil d done fuel p).2.next = j + 1 := by
  induction fuel generalizing p with
  | zero => exact ⟨rfl, fun j h => by cases h⟩
  | succ fuel ih =>
    by_cases hDone : done (d.status p.next) = true
    · rw [readUntil_stop hDone, pollFrom, if_pos hDone]
      refine ⟨rfl, fun j h => ?_⟩
      cases h
      rfl
    · rw [readUntil_again hDone, pollFrom, if_neg hDone]
      exact ih _

/-- A part of the driver that reads no word: where it returns, its result and the number of status
bytes read are as `P` says. -/
structure Ends (d : Answers) {α : Type} (P : α → Nat → Prop) (r : Option α × Port) : Prop where
  polling : r.2.Polling d
  returned : ∀ a, r.1 = some a → P a r.2.next

/-- A part of the driver that reads no word and returns. -/
structure Returns (d : Answers) {α : Type} (a : α) (next : Nat) (r : Option α × Port) : Prop where
  polling : r.2.Polling d
  result : r.1 = some a
  next : r.2.next = next

section AndThen

variable {α β : Type} {d : Answers} {r : Option α × Port} {f : α → Port → Option β × Port}

theorem andThen_some {a : α} (h : r.1 = some a) : andThen r f = f a r.2 := by
  rcases r with ⟨_, p⟩
  cases h
  rfl

theorem andThen_none (h : r.1 = none) : andThen r f = (none, r.2) := by
  rcases r with ⟨_, p⟩
  cases h
  rfl

theorem Ends.andThen {P : α → Nat → Prop} {G : Option β × Port → Prop} (h : Ends d P r)
    (hNone : ∀ p : Port, p.Polling d → G (none, p))
    (hSome : ∀ a (p : Port), p.Polling d → P a p.next → G (f a p)) : G (andThen r f) := by
  cases hResult : r.1 with
  | none => exact andThen_none hResult ▸ hNone r.2 h.polling
  | some a => exact andThen_some hResult ▸ hSome a r.2 h.polling (h.returned a hResult)

theorem Ends.ofNone {P : α → Nat → Prop} {p : Port} (h : p.Polling d) : Ends d P (none, p) :=
  ⟨h, fun a hSome => by cases hSome⟩

theorem Ends.ofSome {P : α → Nat → Prop} {p : Port} {a : α} (h : p.Polling d) (hP : P a p.next) :
    Ends d P (some a, p) :=
  ⟨h, fun _ hSome => Option.some.inj hSome ▸ hP⟩

end AndThen

/-! ## What the loops stop at -/

section Loops

variable {d : Answers} {i j : Nat} {p : Port} (done wait : UInt8 → Bool) (fuel : Nat)

theorem readUntil_ends (hPolling : p.Polling d) :
    Ends d (fun s m => ∃ j, FirstFrom done d.status p.next j ∧ s = d.status j ∧ m = j + 1)
      (readUntil d done fuel p) := by
  obtain ⟨hStatus, hNext⟩ := readUntil_eq d done fuel p
  refine ⟨hPolling.readUntil done fuel, fun s hSome => ?_⟩
  rw [hStatus, Option.map_eq_some_iff] at hSome
  obtain ⟨j, hPoll, hEq⟩ := hSome
  exact ⟨j, (firstFrom_of_pollFrom hPoll).1, hEq.symm, hNext j hPoll⟩

theorem readUntil_returns {done : UInt8 → Bool} {fuel : Nat} (hPolling : p.Polling d)
    (hFirst : FirstFrom done d.status p.next j) (hFuel : j < fuel) :
    Returns d (d.status j) (j + 1) (readUntil d done fuel p) := by
  have hPoll := pollFrom_of_firstFrom hFirst (Nat.lt_add_left p.next hFuel)
  obtain ⟨hStatus, hNext⟩ := readUntil_eq d done fuel p
  exact ⟨hPolling.readUntil done fuel, by rw [hStatus, hPoll, Option.map_some], hNext j hPoll⟩

/-- The loop that tests first starts with the status byte that was read last. -/
theorem readWhile_ends (hPolling : p.Polling d) (hNext : p.next = i + 1) :
    Ends d (fun s m => ∃ j, FirstFrom (fun s => !wait s) d.status i j ∧ s = d.status j ∧ m = j + 1)
      (readWhile d wait (d.status i) fuel p) := by
  by_cases hWait : wait (d.status i) = true
  · rw [readWhile, if_pos hWait]
    have hEnds := readUntil_ends (fun s => !wait s) fuel hPolling
    refine ⟨hEnds.polling, fun s hSome => ?_⟩
    obtain ⟨j, hFirst, hEq⟩ := hEnds.returned s hSome
    exact ⟨j, .later (by simp [hWait]) (hNext ▸ hFirst), hEq⟩
  · rw [readWhile, if_neg hWait]
    exact .ofSome hPolling ⟨i, .here (by simpa using hWait), rfl, hNext⟩

theorem readWhile_returns {fuel : Nat} (hPolling : p.Polling d) (hNext : p.next = i + 1)
    (hFirst : FirstFrom (fun s => !wait s) d.status i j) (hFuel : j < fuel) :
    Returns d (d.status j) (j + 1) (readWhile d wait (d.status i) fuel p) := by
  by_cases hWait : wait (d.status i) = true
  · rw [readWhile, if_pos hWait]
    refine readUntil_returns hPolling ⟨?_, hFirst.meets, fun k hLe => hFirst.before k ?_⟩ hFuel
    · refine hNext ▸ Nat.lt_of_le_of_ne hFirst.le fun hEq => ?_
      exact absurd hFirst.meets (by simp [← hEq, hWait])
    · omega
  · rw [readWhile, if_neg hWait]
    obtain rfl : j = i := hFirst.unique (.here (by simpa using hWait))
    exact ⟨hPolling, rfl, hNext⟩

end Loops

/-! ## Where the words are read -/

/-- The two waits of `COMMAND` end, and `n` is the first status byte after the one that it reads
itself. -/
def AfterCommand (d : Answers) (n : Nat) : Prop :=
  ∃ i j, FirstFrom (fun s => !bsy s) d.status 0 i ∧ FirstFrom rdy d.status (i + 1) j ∧ n = j + 2

/-- The status at `k` is the first one from `n` on that is not busy. -/
abbrev NotBusy (d : Answers) : Nat → Nat → Prop :=
  FirstFrom (fun s => !bsy s) d.status

/-- The status at `j` is the first one from `k` on that has not both bits set. -/
abbrev NotBoth (d : Answers) : Nat → Nat → Prop :=
  FirstFrom (fun s => !(drq s && err s)) d.status

/-- The words are read after the status at `j`, where the first one after the command is at `n`. -/
def WordsAfter (d : Answers) (n j : Nat) : Prop :=
  ∃ k, NotBusy d n k ∧ if d.lbaMid ≠ 0 ∧ d.lbaHigh ≠ 0 then j = k else NotBoth d k j

section Run

variable {d : Answers} {j n : Nat} {p : Port} (bus : Bus) (cmd : UInt8) (fuel : Nat)

theorem deviceNotAta_fst : (deviceNotAta d p).1 = decide (d.lbaMid ≠ 0 ∧ d.lbaHigh ≠ 0) := by
  rw [deviceNotAta]
  split_ifs with hMid
  · by_cases hHigh : d.lbaHigh = 0 <;> simp [hMid, hHigh]
  · simp [hMid]

theorem deviceNotAta_next : (deviceNotAta d p).2.next = p.next := by
  rw [deviceNotAta]
  split_ifs <;> rfl

theorem command_ends (hPolling : p.Polling d) (hNext : p.next = 0) :
    Ends d (fun _ => AfterCommand d) (command d bus cmd fuel p) := by
  refine (readUntil_ends _ fuel hPolling).andThen (fun _ => .ofNone)
    fun _ p₁ h₁ ⟨i, hFree, _, hNext₁⟩ => ?_
  refine (readUntil_ends _ fuel h₁).andThen (fun _ => .ofNone)
    fun _ p₂ h₂ ⟨j, hReady, _, hNext₂⟩ => ?_
  exact .ofSome (h₂.access (by simp) (by simp)).readStatus
    ⟨i, j, hNext ▸ hFree, hNext₁ ▸ hReady, congrArg (· + 1) hNext₂⟩

theorem command_returns {fuel : Nat} (hPolling : p.Polling d) (hNext : p.next = 0)
    (hAfter : AfterCommand d n) (hFuel : n < fuel) :
    ∃ s, Returns d s n (command d bus cmd fuel p) := by
  obtain ⟨i, j, hFree, hReady, rfl⟩ := hAfter
  have hLe := hReady.le
  have hFirst := readUntil_returns hPolling (hNext ▸ hFree) (show i < fuel by omega)
  have hSecond := readUntil_returns hFirst.polling (hFirst.next ▸ hReady) (show j < fuel by omega)
  rw [command, andThen_some hFirst.result, andThen_some hSecond.result]
  exact ⟨_, (hSecond.polling.access (by simp) (by simp)).readStatus, rfl,
    congrArg (· + 1) hSecond.next⟩

theorem waitForData_ends (hPolling : p.Polling d) (hNext : p.next = n + 1) :
    Ends d (fun _ m => ∃ j, WordsAfter d n j ∧ m = j + 1)
      (waitForData d (d.status n) fuel p) := by
  refine (readWhile_ends _ fuel hPolling hNext).andThen (fun _ => .ofNone)
    fun s p₁ h₁ ⟨k, hFree, hStatus, hNext₁⟩ => ?_
  subst hStatus
  have hNext₂ : (deviceNotAta d p₁).2.next = k + 1 := deviceNotAta_next.trans hNext₁
  dsimp only
  by_cases hSig : d.lbaMid ≠ 0 ∧ d.lbaHigh ≠ 0
  · rw [if_pos (by rw [deviceNotAta_fst]; exact decide_eq_true hSig)]
    exact .ofSome h₁.deviceNotAta ⟨k, ⟨k, hFree, by rw [if_pos hSig]⟩, hNext₂⟩
  · rw [if_neg (by rw [deviceNotAta_fst]; simpa using hSig)]
    refine (readWhile_ends _ fuel h₁.deviceNotAta hNext₂).andThen (fun _ => .ofNone)
      fun _ p₃ h₃ ⟨j, hBoth, _, hNext₃⟩ => ?_
    exact .ofSome h₃ ⟨j, ⟨k, hFree, by rw [if_neg hSig]; exact hBoth⟩, hNext₃⟩

theorem waitForData_returns (hPolling : p.Polling d) (hNext : p.next = n + 1)
    {fuel : Nat} (hWords : WordsAfter d n j) (hFuel : j < fuel) :
    ∃ notAta, Returns d notAta (j + 1) (waitForData d (d.status n) fuel p) := by
  obtain ⟨k, hFree, hData⟩ := hWords
  have hLe : k ≤ j := by
    split_ifs at hData with hSig
    · exact Nat.le_of_eq hData.symm
    · exact hData.le
  have hFirst := readWhile_returns bsy hPolling hNext hFree (Nat.lt_of_le_of_lt hLe hFuel)
  have hNotAta := hFirst.polling.deviceNotAta
  have hNext' : (deviceNotAta d (readWhile d bsy (d.status n) fuel p).2).2.next = k + 1 :=
    deviceNotAta_next.trans hFirst.next
  rw [waitForData, andThen_some hFirst.result]
  dsimp only
  split_ifs at hData with hSig
  · rw [if_pos (by rw [deviceNotAta_fst]; exact decide_eq_true hSig)]
    exact ⟨true, hNotAta, rfl, hData ▸ hNext'⟩
  · rw [if_neg (by rw [deviceNotAta_fst]; simpa using hSig)]
    have hSecond := readWhile_returns (fun s => drq s && err s) hNotAta hNext' hData hFuel
    rw [andThen_some hSecond.result]
    exact ⟨false, hSecond.polling, rfl, hSecond.next⟩

end Run

/-- Before the first access. -/
def Port.start : Port := ⟨0, []⟩

theorem Port.start_polling (d : Answers) : Port.start.Polling d :=
  ⟨by simp [Port.start], fun i h => by cases h⟩

/-- Either no word was read, or the words were read after a status that `WordsAfter` allows. -/
def WordsInTurn (d : Answers) (p : Port) : Prop :=
  p.Polling d ∨ ∃ n j q, AfterCommand d n ∧ d.status n ≠ 0 ∧ WordsAfter d n j ∧
    Port.Polling d q ∧ q.next = j + 1 ∧ p = q.readWords d

theorem getDeviceInfo_wordsInTurn (d : Answers) (bus : Bus) (fuel : Nat) :
    WordsInTurn d (getDeviceInfo d bus fuel .start).2 := by
  refine (command_ends bus identify fuel ((Port.start_polling d).prepare bus) rfl).andThen
    (G := fun r : Option DeviceInfoResult × Port => WordsInTurn d r.2)
    (fun _ => .inl) fun _ p hPolling hAfter => ?_
  dsimp only
  split_ifs with hFound
  · refine (waitForData_ends fuel hPolling.readStatus rfl).andThen
      (G := fun r : Option DeviceInfoResult × Port => WordsInTurn d r.2)
      (fun _ => .inl) fun _ q hPolling' ⟨j, hWords, hNext⟩ => ?_
    exact .inr ⟨p.next, j, q, hAfter, hFound, hWords, hPolling', hNext, rfl⟩
  · exact .inl hPolling.readStatus

theorem getDeviceInfo_readWords {d : Answers} (bus : Bus) {n j : Nat} (hAfter : AfterCommand d n)
    (hFound : d.status n ≠ 0) (hWords : WordsAfter d n j) :
    ∃ fuel q, Port.Polling d q ∧ q.next = j + 1 ∧
      (getDeviceInfo d bus fuel .start).2 = q.readWords d := by
  refine ⟨n + j + 1, ?_⟩
  have hPrepared := (Port.start_polling d).prepare bus
  obtain ⟨_, hCommand⟩ := command_returns bus identify hPrepared rfl hAfter
    (show n < n + j + 1 by omega)
  rw [getDeviceInfo, andThen_some hCommand.result]
  generalize command d bus identify (n + j + 1) (prepare bus .start) = r at hCommand
  have hNext := hCommand.next
  have hRead : (r.2.readStatus d).1 = d.status n := congrArg d.status hNext
  obtain ⟨_, hWait⟩ := waitForData_returns hCommand.polling.readStatus (congrArg (· + 1) hNext)
    hWords (show j < n + j + 1 by omega)
  dsimp only
  rw [hRead, if_pos hFound, andThen_some hWait.result]
  exact ⟨_, hWait.polling, hWait.next, rfl⟩

/-! ## The handshake -/

/-- `status` is not busy and has data or an error. -/
def dataOrError (status : UInt8) : Bool := !bsy status && (drq status || err status)

/-- A word is read only after a status byte that allows it, and only from an ATA device. -/
def Handshake (d : Answers) (accesses : List Access) : Prop :=
  ∀ front w rest, accesses = front ++ .data w :: rest →
    (∃ s, lastStatus front = some s ∧ dataOrError s) ∧ d.lbaMid = 0 ∧ d.lbaHigh = 0

/-- What a device answers from its first status `k` on that is not busy: one of the two registers
of the signature is zero, and where a status without both bits comes at all, they both are and the
first such status is not busy and has one of the bits. -/
def AnswersInTurn (d : Answers) : Prop :=
  ∀ n k, AfterCommand d n → d.status n ≠ 0 → NotBusy d n k →
    (d.lbaMid = 0 ∨ d.lbaHigh = 0) ∧
      ∀ j, NotBoth d k j → d.lbaMid = 0 ∧ d.lbaHigh = 0 ∧ dataOrError (d.status j)

theorem lastStatus_words (accesses : List Access) (words : List UInt16) :
    lastStatus (accesses ++ words.map .data) = lastStatus accesses := by
  have hNone : (words.map Access.data).filterMap Access.statusByte = [] := by
    rw [List.filterMap_eq_nil_iff]
    intro a hMem
    obtain ⟨w, -, rfl⟩ := List.mem_map.mp hMem
    rfl
  rw [lastStatus, List.filterMap_append, hNone, List.append_nil, lastStatus]

/-- What stands before a word, where the accesses before the words have none. -/
theorem front_eq_of_noData {accesses front rest : List Access} {words : List UInt16} {w : UInt16}
    (hNo : ∀ v, .data v ∉ accesses)
    (hSplit : accesses ++ words.map .data = front ++ .data w :: rest) :
    ∃ before : List UInt16, front = accesses ++ before.map .data := by
  rcases List.append_eq_append_iff.mp hSplit with ⟨mid, rfl, hWords⟩ | ⟨mid, rfl, hWords⟩
  · obtain ⟨before, _, -, rfl, -⟩ := List.map_eq_append_iff.mp hWords
    exact ⟨before, rfl⟩
  · cases mid with
    | nil => exact ⟨[], by simp⟩
    | cons a mid =>
      obtain ⟨rfl, -⟩ := List.cons.inj hWords
      exact absurd (by simp) (hNo w)

theorem Port.readWords_eq (d : Answers) (p : Port) : (p.readWords d).accesses =
    p.accesses ++ (d.word 0 :: (List.range' 1 255).map d.word).map .data := by
  have hRange : List.range 256 = 0 :: List.range' 1 255 := List.range_eq_range'
  rw [readWords, hRange, List.map_cons, List.map_cons, List.map_map]
  rfl

/-- The words that are read at once are all allowed or none. -/
theorem handshake_readWords {d : Answers} {q : Port} {j : Nat} (hPolling : q.Polling d)
    (hNext : q.next = j + 1) : Handshake d (q.readWords d).accesses ↔
      dataOrError (d.status j) ∧ d.lbaMid = 0 ∧ d.lbaHigh = 0 := by
  have hLast := hPolling.last j hNext
  rw [Port.readWords_eq]
  constructor
  · intro h
    obtain ⟨⟨s, hStatus, hAllowed⟩, hAta⟩ := h q.accesses (d.word 0) _ rfl
    rw [hLast] at hStatus
    exact ⟨Option.some.inj hStatus ▸ hAllowed, hAta⟩
  · rintro ⟨hAllowed, hAta⟩ front w rest hSplit
    obtain ⟨before, rfl⟩ := front_eq_of_noData hPolling.no_data hSplit
    exact ⟨⟨d.status j, by rw [lastStatus_words, hLast], hAllowed⟩, hAta⟩

theorem handshake_of_polling {d : Answers} {p : Port} (h : p.Polling d) :
    Handshake d p.accesses := fun front w rest hSplit =>
  absurd (hSplit ▸ List.mem_append_right front (.head rest)) (h.no_data w)

/-- The words are read as the comments say for exactly the devices that answer in turn. -/
theorem handshake_iff (d : Answers) (bus : Bus) :
    (∀ fuel, Handshake d (getDeviceInfo d bus fuel .start).2.accesses) ↔ AnswersInTurn d := by
  constructor
  · intro h n k hAfter hFound hFree
    have hAllowed : ∀ j, WordsAfter d n j →
        dataOrError (d.status j) ∧ d.lbaMid = 0 ∧ d.lbaHigh = 0 := by
      intro j hWords
      obtain ⟨fuel, q, hPolling, hNext, hEq⟩ := getDeviceInfo_readWords bus hAfter hFound hWords
      exact (handshake_readWords hPolling hNext).mp (hEq ▸ h fuel)
    by_cases hSig : d.lbaMid ≠ 0 ∧ d.lbaHigh ≠ 0
    · exact absurd (hAllowed k ⟨k, hFree, by rw [if_pos hSig]⟩).2.1 hSig.1
    · refine ⟨by tauto, fun j hBoth => ?_⟩
      obtain ⟨hStatus, hMid, hHigh⟩ := hAllowed j ⟨k, hFree, by rw [if_neg hSig]; exact hBoth⟩
      exact ⟨hMid, hHigh, hStatus⟩
  · intro h fuel
    rcases getDeviceInfo_wordsInTurn d bus fuel with
      hPolling | ⟨n, j, q, hAfter, hFound, ⟨k, hFree, hData⟩, hPolling, hNext, hEq⟩
    · exact handshake_of_polling hPolling
    obtain ⟨hSig, hTurn⟩ := h n k hAfter hFound hFree
    rw [if_neg (fun hBoth => hSig.elim hBoth.1 hBoth.2)] at hData
    obtain ⟨hMid, hHigh, hStatus⟩ := hTurn j hData
    rw [hEq]
    exact (handshake_readWords hPolling hNext).mpr ⟨hStatus, hMid, hHigh⟩

/-- A device that is ready all the time, and never has data. -/
def readyOnly : Answers := ⟨fun _ => 0x40, 0, 0, fun _ => 0⟩

theorem words_without_data :
    ¬ ∀ (d : Answers) (bus : Bus) (fuel : Nat),
      Handshake d (getDeviceInfo d bus fuel .start).2.accesses := by
  intro h
  have hFirst : ∀ p : UInt8 → Bool, p 0x40 = true → ∀ i, FirstFrom p readyOnly.status i i :=
    fun p hMeets i => .here hMeets
  have hAfter : AfterCommand readyOnly 3 :=
    ⟨0, 1, hFirst _ (by decide) 0, hFirst _ (by decide) 1, rfl⟩
  have hWords : WordsAfter readyOnly 3 3 :=
    ⟨3, hFirst _ (by decide) 3, hFirst (fun s => !(drq s && err s)) (by decide) 3⟩
  obtain ⟨fuel, q, hPolling, hNext, hEq⟩ :=
    getDeviceInfo_readWords .primary hAfter (by decide) hWords
  have hAllowed := (handshake_readWords hPolling hNext).mp (hEq ▸ h readyOnly .primary fuel)
  exact absurd hAllowed.1 (by decide)

end Juos.Ata
