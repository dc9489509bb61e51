import Juos.DataStructures.Vector
import Juos.Machine.CString
import Juos.Machine.Polling
import Juos.Scheduler.AddressSpaces

/-!
# Starting a process by its name

`Processing::RegisterProcess` and `Processing::Start::Process` with the search for the name. The
array of a `String` has no room for a NUL, so that `strcmp` goes on with what lies behind it: the
texts that it finds are what the memory holds there when the names are compared. `Start::Process`
copies 128 bytes from the name on and makes a temporary `String` of the text in the buffer for each
comparison; the text goes on behind the buffer when there is no NUL in it. The result of the search
is used as it is, also when it is the end of the array.

The record of the process and its directory are what operator `new` and `create_new_page_directory`
have returned; the mappings of the process are left out.

`startsRegistered_iff` says when the process that is added is the one that was registered.
-/

namespace Juos.Scheduler

open DataStructures Machine

/-- `std::find_if`, on the elements at the indices from `first` up to `last`. -/
def findIf {α : Type} (q : α → Bool) (elements : Nat → α) (first last : Nat) : Nat :=
  (pollFrom q elements (last - first) first).getD last

structure RegisteredProcess where
  name : List UInt8
  funcPtr : Nat
  deriving DecidableEq, Repr

/-- The constructor without arguments. -/
def RegisteredProcess.default : RegisteredProcess := ⟨[], 0⟩

/-- `RegisterProcess`; `room` says whether operator `new` finds room where the array grows. -/
def registerProcess (room : Bool) (name : List UInt8) (func : Nat)
    (registered : Vector RegisteredProcess) : Option (Vector RegisteredProcess) :=
  registered.pushBack room ⟨cString name, func⟩

/-- A call of `RegisterProcess`, with the bytes from its name on. -/
structure Registration where
  name : List UInt8
  func : Nat
  room : Bool

def Registration.process (r : Registration) : RegisteredProcess := ⟨cString r.name, r.func⟩

def registerAll (calls : List Registration) : Option (Vector RegisteredProcess) :=
  calls.foldlM (fun v r => registerProcess r.room r.name r.func v) Vector.empty

/-- What `Start::Process` finds in memory. -/
structure Registry where
  registered : Vector RegisteredProcess
  /-- what lies behind their array -/
  behindArray : RegisteredProcess
  /-- the bytes behind `_proc_name_buffer` -/
  behindBuffer : List UInt8
  /-- the text that `strcmp` finds at the name in a slot -/
  found : Nat → List UInt8
  /-- whether operator `new` finds room for the temporary `String` of the comparison with a slot -/
  room : Nat → Bool
  /-- the bytes behind the array of that `String` -/
  behindTemporary : Nat → List UInt8
  /-- the bytes from address 0 on -/
  atNull : List UInt8

namespace Registry

/-- `*first`. A slot that was never assigned to is as the constructor left it. -/
def deref (r : Registry) (i : Nat) : RegisteredProcess :=
  match r.registered.buffer[i]? with
  | some slot => slot.getD .default
  | none => r.behindArray

/-- `_proc_name_buffer` after `memset` and `memcpy`. -/
def procNameBuffer (name : List UInt8) : List UInt8 := (name.take 128).rightpad 128 0

/-- The text in the buffer. -/
def procName (r : Registry) (name : List UInt8) : List UInt8 :=
  cString (procNameBuffer name ++ r.behindBuffer)

/-- The text that `strcmp` finds in the temporary `String`. There is no array for an empty one. -/
def wanted (r : Registry) (name : List UInt8) (i : Nat) : List UInt8 :=
  if r.procName name = [] ∨ r.room i = false then cString r.atNull
  else cString (r.procName name ++ r.behindTemporary i)

/-- `rp.name.compare(_proc_name_buffer)` -/
def compare (r : Registry) (name : List UInt8) (i : Nat) : Bool := r.found i == r.wanted name i

/-- The index that the search for the name returns. -/
def find (r : Registry) (name : List UInt8) : Nat :=
  findIf (r.compare name) id 0 r.registered.size

end Registry

/-- What `Start::Process` has done: the kernel after it, and whether it read what lies behind the
last registered process. -/
structure Started where
  entered : Entered
  /-- what it returns -/
  pid : Nat
  pastEnd : Bool

/-- `Processing::Start::Process`; operator `new` returns `process`, `pid` is the next one and
`directory` the one that is created. -/
def startByName (A : NodeSource) (kernelDirectory process pid directory : Nat)
    (priority : Priority) (r : Registry) (name : List UInt8) (k : Kernel) : Started :=
  let proc := r.find name
  let newRecord := newProcess pid priority directory (r.deref proc).funcPtr
  let processes := Function.update k.scheduler.processes process newRecord
  ⟨startProcess A kernelDirectory process { k with scheduler := { k.scheduler with processes } },
    pid, proc = r.registered.size⟩

/-! ## The name -/

section Name

variable {name : List UInt8} {r : Registry}

/-- A name of less than 128 characters is found as it was passed. -/
theorem procName_short (hNul : 0 ∈ name) (hShort : (cString name).length < 128) :
    r.procName name = cString name := by
  obtain ⟨rest, hName⟩ := eq_cString_append hNul
  have hText : ∀ c ∈ cString name, c ≠ 0 := fun c => ne_zero_of_mem_cString
  have hTake : name.take 128 = cString name ++ 0 :: rest.take (127 - (cString name).length) := by
    have hRoom : 128 - (cString name).length = (127 - (cString name).length) + 1 := by omega
    rw [hName, List.take_append, List.take_of_length_le hShort.le, ← hName, hRoom,
      List.take_succ_cons]
  rw [Registry.procName, Registry.procNameBuffer, hTake, List.rightpad, List.append_assoc,
    List.append_assoc, List.cons_append]
  exact cString_terminated hText _

/-- Of a longer one the first 128 characters are found, and what lies behind the buffer. -/
theorem procName_long (hLong : 128 ≤ (cString name).length) :
    r.procName name = (cString name).take 128 ++ cString r.behindBuffer := by
  have hTake : name.take 128 = (cString name).take 128 := by
    conv_lhs => rw [← List.takeWhile_append_dropWhile (p := (· ≠ 0)) (l := name)]
    exact List.take_append_of_le_length hLong
  have hFull : 128 - ((cString name).take 128).length = 0 := by
    rw [List.length_take, Nat.min_eq_left hLong]
  rw [Registry.procName, Registry.procNameBuffer, hTake, List.rightpad, hFull, List.replicate_zero,
    List.append_nil]
  exact cString_append (fun c hMem => ne_zero_of_mem_cString (List.mem_of_mem_take hMem)) _

end Name

/-! ## The search -/

/-- The first registration under a name. -/
def firstNamed (registrations : List RegisteredProcess) (text : List UInt8) :
    Option RegisteredProcess :=
  registrations.find? fun rp => rp.name == text

/-- A registered name is found equal. -/
def Hit (r : Registry) (l : List RegisteredProcess) (name : List UInt8) : Prop :=
  ∃ i < l.length, r.compare name i = true

/-- The function belongs to the first of the slots whose name is found equal or, if there is none,
it happens to lie behind the last registered process. -/
def LeadsTo (r : Registry) (l : List RegisteredProcess) (name : List UInt8) (func : Nat) : Prop :=
  (∃ i rp, FirstFrom (r.compare name) id 0 i ∧ l[i]? = some rp ∧ rp.funcPtr = func) ∨
    ¬ Hit r l name ∧ (r.deref l.length).funcPtr = func

/-- Every text that `strcmp` finds ends where the name does. -/
structure Terminated (r : Registry) (l : List RegisteredProcess) : Prop where
  found : ∀ i rp, l[i]? = some rp → r.found i = rp.name
  room : ∀ i < l.length, r.room i = true
  temporary : ∀ i < l.length, cString (r.behindTemporary i) = []
  null : cString r.atNull = []

section Search

variable {calls : List Registration} {v w : Vector RegisteredProcess}
  {l : List RegisteredProcess} {r : Registry} {name : List UInt8} {rp : RegisteredProcess}
  {func : Nat}

theorem holds_foldlM (hHolds : v.Holds l)
    (h : calls.foldlM (fun v r => registerProcess r.room r.name r.func v) v = some w) :
    w.Holds (l ++ calls.map Registration.process) := by
  induction calls generalizing v l with
  | nil =>
    cases h
    rwa [List.map_nil, List.append_nil]
  | cons c calls ih =>
    rw [List.foldlM_cons] at h
    obtain ⟨u, hPush, hRest⟩ := Option.bind_eq_some_iff.mp h
    have hHere := ih (hHolds.pushBack hPush) hRest
    rwa [List.append_assoc] at hHere

theorem holds_registerAll (h : registerAll calls = some v) :
    v.Holds (calls.map Registration.process) :=
  holds_foldlM .empty h

theorem slot_eq (h : v.Holds l) {i : Nat} (hi : i < l.length) :
    v.buffer[i]? = some (some l[i]) := by
  have hTake := congrArg (·[i]?) h.elements
  rwa [List.getElem?_take_of_lt (h.size_eq ▸ hi), List.getElem?_map,
    List.getElem?_eq_getElem hi, Option.map_some] at hTake

theorem deref_eq (h : r.registered.Holds l) {i : Nat} (hi : i < l.length) : r.deref i = l[i] := by
  rw [Registry.deref, slot_eq h hi]
  rfl

/-- The search stops at the first name that is found equal. -/
theorem find_first (h : r.registered.Holds l) {i : Nat} (hi : i < l.length)
    (hFirst : FirstFrom (r.compare name) id 0 i) : r.find name = i := by
  rw [Registry.find, findIf, pollFrom_of_firstFrom hFirst (by rw [h.size_eq]; omega)]
  rfl

theorem find_none (h : r.registered.Holds l) (hNone : ¬ Hit r l name) :
    r.find name = l.length := by
  rw [Registry.find, findIf, h.size_eq]
  cases hPoll : pollFrom (r.compare name) id (l.length - 0) 0 with
  | none => rfl
  | some i =>
    obtain ⟨hStop, hi⟩ := firstFrom_of_pollFrom hPoll
    exact absurd ⟨i, by omega, hStop.meets⟩ hNone

theorem exists_first (hHit : Hit r l name) :
    ∃ i < l.length, FirstFrom (r.compare name) id 0 i := by
  obtain ⟨hi, hMeets⟩ := Nat.find_spec hHit
  refine ⟨Nat.find hHit, hi, Nat.zero_le _, hMeets, fun k _ hk => ?_⟩
  rw [Bool.eq_false_iff]
  exact fun hBefore => Nat.find_min hHit hk ⟨hk.trans hi, hBefore⟩

theorem find_eq_size_iff (h : r.registered.Holds l) :
    r.find name = r.registered.size ↔ ¬ Hit r l name := by
  rw [h.size_eq]
  constructor
  · intro hEnd hHit
    obtain ⟨i, hi, hFirst⟩ := exists_first hHit
    exact absurd hEnd (find_first h hi hFirst ▸ Nat.ne_of_lt hi)
  · exact find_none h

/-- The search leads to one function. -/
theorem leadsTo_iff (h : r.registered.Holds l) :
    LeadsTo r l name func ↔ (r.deref (r.find name)).funcPtr = func := by
  by_cases hHit : Hit r l name
  · obtain ⟨i, hi, hFirst⟩ := exists_first hHit
    rw [find_first h hi hFirst, deref_eq h hi]
    constructor
    · rintro (⟨j, rp, hFirst', hSlot, rfl⟩ | ⟨hNone, -⟩)
      · obtain rfl := hFirst.unique hFirst'
        rw [List.getElem?_eq_getElem hi] at hSlot
        rw [Option.some.inj hSlot]
      · exact absurd hHit hNone
    · intro hFunc
      exact .inl ⟨i, _, hFirst, List.getElem?_eq_getElem hi, hFunc⟩
  · rw [find_none h hHit]
    constructor
    · rintro (⟨i, rp, hFirst, hSlot, -⟩ | ⟨-, hFunc⟩)
      · obtain ⟨hi, -⟩ := List.getElem?_eq_some_iff.mp hSlot
        exact absurd ⟨i, hi, hFirst.meets⟩ hHit
      · exact hFunc
    · exact fun hFunc => .inr ⟨hHit, hFunc⟩

namespace Terminated

variable (hTerminated : Terminated r l) (hNul : 0 ∈ name) (hShort : (cString name).length < 128)

include hTerminated hNul hShort

/-- Then names are compared as they were passed. -/
theorem compare_eq {i : Nat} (hi : i < l.length) :
    r.compare name i = (l[i].name == cString name) := by
  have hText : ∀ c ∈ cString name, c ≠ 0 := fun c => ne_zero_of_mem_cString
  have hWanted : r.wanted name i = cString name := by
    rw [Registry.wanted, procName_short hNul hShort]
    split
    · rename_i hEmpty
      have hEmpty' : cString name = [] :=
        hEmpty.resolve_right fun hNone => nomatch (hTerminated.room i hi).symm.trans hNone
      rw [hTerminated.null, hEmpty']
    · rw [cString_append hText, hTerminated.temporary i hi, List.append_nil]
  rw [Registry.compare, hWanted, hTerminated.found i _ (List.getElem?_eq_getElem hi)]

theorem leadsTo (hFirst : firstNamed l (cString name) = some rp) :
    LeadsTo r l name rp.funcPtr := by
  obtain ⟨hMeets, i, hi, rfl, hBefore⟩ := List.find?_eq_some_iff_getElem.mp hFirst
  refine .inl ⟨i, l[i], ⟨Nat.zero_le i, ?_, fun k _ hk => ?_⟩, List.getElem?_eq_getElem hi, rfl⟩
  · rwa [id, hTerminated.compare_eq hNul hShort hi]
  · rw [id, hTerminated.compare_eq hNul hShort (hk.trans hi)]
    simpa using hBefore k hk

theorem not_hit (hNone : firstNamed l (cString name) = none) : ¬ Hit r l name := by
  rintro ⟨i, hi, hMeets⟩
  rw [hTerminated.compare_eq hNul hShort hi] at hMeets
  exact List.find?_eq_none.mp hNone _ (List.getElem_mem hi) hMeets

end Terminated

end Search

/-! ## The process that is added -/

section Adding

variable {A : NodeSource} {kernelDirectory process pid directory : Nat} {priority : Priority}
  {r : Registry} {name : List UInt8} {k : Kernel} {L : Lists}

/-- One process is added to the lists `L` of the scheduler, and it runs the function `func`. -/
def AddsOne (L : Lists) (process func : Nat) (s : ProcessScheduler) : Prop :=
  ∃ L', ListStep s.processes L (.addItem process) L' ∧ Represents s.processes s L' ∧
    (s.processes process).registers.eip = func

theorem addItem_processes (A : NodeSource) (process : Nat) (s : ProcessScheduler) :
    (addItem A process s).processes = s.processes := by
  rw [addItem]
  split <;> rfl

/-- Whatever the search has returned, one process is added, or lost. -/
theorem startByName_cases (A : NodeSource) (kernelDirectory pid directory : Nat)
    (priority : Priority) (r : Registry) (name : List UInt8)
    (hRep : Represents k.scheduler.processes k.scheduler L) (hProcess : process ≠ 0) :
    let s := (startByName A kernelDirectory process pid directory priority r name
      k).entered.kernel.scheduler
    Takes A k.scheduler priority ∧ AddsOne L process (r.deref (r.find name)).funcPtr s ∨
      ¬ Takes A k.scheduler priority ∧ Represents s.processes s L := by
  let newRecord := newProcess pid priority directory (r.deref (r.find name)).funcPtr
  let processes := Function.update k.scheduler.processes process newRecord
  have hNew : Represents processes { k.scheduler with processes } L :=
    ⟨hRep.queues, hRep.canceled, fun _ => rfl, fun _ => rfl, fun _ => rfl, hRep.nonnull⟩
  have hRecord : processes process = newRecord := Function.update_self ..
  obtain ⟨L', hRep', hCases⟩ := addItem_cases A hNew hProcess
  have hProcesses := addItem_processes A process { k.scheduler with processes }
  rw [hRecord] at hCases
  refine hCases.imp (fun ⟨hTakes, hStep, _⟩ => ⟨hTakes, L', ?_, hRep'.self, ?_⟩)
    fun ⟨hLost, hSame⟩ => ⟨hLost, hSame ▸ hRep'.self⟩
  · exact hProcesses.symm ▸ hStep
  · rw [startByName, startProcess]
    rw [addItem_processes]
    exact congrArg (fun p : KernelProcess => p.registers.eip) hRecord

/-- A scheduler to which a process was added is not as it was. -/
theorem AddsOne.not_same {func : Nat} {s : ProcessScheduler} (h : AddsOne L process func s) :
    ¬ Represents s.processes s L := by
  obtain ⟨L', hStep, hRep, -⟩ := h
  intro hSame
  have hEq : L' = L := hRep.unique hSame
  cases hStep with
  | addSystem => exact absurd (congrArg (·.system.length) hEq) (by simp)
  | addRegular => exact absurd (congrArg (·.regular.length) hEq) (by simp)

theorem AddsOne.iff {func func' : Nat} {s : ProcessScheduler} (h : AddsOne L process func s) :
    AddsOne L process func' s ↔ func = func' := by
  obtain ⟨L', hStep, hRep, hFunc⟩ := h
  constructor
  · rintro ⟨-, -, -, hFunc'⟩
    exact hFunc.symm.trans hFunc'
  · rintro rfl
    exact ⟨L', hStep, hRep, hFunc⟩

/-- One process is added, and it runs the function that was registered first under the name; where
there is none, nothing is added and nothing behind the registered processes is read. -/
def StartsRegistered (l : List RegisteredProcess) (name : List UInt8) (L : Lists) (process : Nat)
    (s : Started) : Prop :=
  match firstNamed l (cString name) with
  | some rp => AddsOne L process rp.funcPtr s.entered.kernel.scheduler
  | none => Represents s.entered.kernel.scheduler.processes s.entered.kernel.scheduler L ∧
      s.pastEnd = false

end Adding

/-- The registrations of `shell` and `loop2`. -/
def twoNames : List Registration :=
  [⟨[115, 104, 101, 108, 108, 0], 0x1000, true⟩, ⟨[108, 111, 111, 112, 50, 0], 0x2000, true⟩]

/-- The kernel with a scheduler that has no processes. -/
def idleKernel : Kernel :=
  ⟨start ⟨fun _ => ⟨0, 0⟩, []⟩ fun _ => newProcess 0 .low 0 0, true, [.runProcessScheduler], 0, 512⟩

/-- A memory that is zero behind every array. -/
def zeroed (v : Vector RegisteredProcess) : Registry :=
  ⟨v, .default, [], fun i => (v.buffer[i]?.join.getD .default).name, fun _ => true, fun _ => [], []⟩

theorem terminated_zeroed {v : Vector RegisteredProcess} {l : List RegisteredProcess}
    (h : v.Holds l) : Terminated (zeroed v) l where
  found i rp hSlot := by
    obtain ⟨hi, rfl⟩ := List.getElem?_eq_some_iff.mp hSlot
    simp [zeroed, slot_eq h hi]
  room _ _ := rfl
  temporary _ _ := rfl
  null := rfl

theorem represents_idle :
    Represents idleKernel.scheduler.processes idleKernel.scheduler .empty := represents_start _ _

theorem takes_idle : Takes kernelPool idleKernel.scheduler .high :=
  ⟨by decide, (intact_start _ _).whole .high⟩

end Juos.Scheduler
