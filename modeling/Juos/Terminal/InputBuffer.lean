import Juos.DataStructures.Queue
import Juos.Machine.Run
import Juos.Terminal.Keyboard
import Juos.Terminal.LineEditing

/-!
# The input buffers

Keys on their way from the keyboard to the processes. `KeyboardHandler` puts a key into the buffer
of the process that is the current one, and `GetChar` of that process takes it out again. The lock
of `GetChar` does not keep the interrupt away, so `GetChar` is modelled one memory access after the
other, and between any two of them there may be keys and ticks.

`received_of_run` says what comes of that while operator `new` has a node for each key. Each process
is given the keys that came while it was the current one, in their order, except those that came
when `dequeue` had read that nothing follows the first node and had not yet stored it.
-/

namespace Juos.Terminal

open DataStructures Machine

/-! ## Processes -/

/-- How far a call of `GetChar` has come. -/
inductive Reading where
  | outside
  /-- with the lock, in the loop that waits for a key -/
  | waiting
  /-- in `dequeue`, before its test -/
  | dequeuing
  /-- `x` is copied and `p` is the first node -/
  | copied (x : InputKeyType) (p : Nat)
  /-- `first->next` is read -/
  | loaded (x : InputKeyType) (p next : Nat)
  /-- it is stored to `first`, and `p` is not deleted yet -/
  | unlinked (x : InputKeyType) (p : Nat)
  /-- `dequeue` has returned -/
  | taken (x : InputKeyType)
  deriving DecidableEq, Repr

/-- What a process has of the input, in its own address space. -/
structure InputProcess where
  /-- `input_buffer`, which may be null -/
  buffer : Option Queue
  heap : NodeHeap InputKeyType
  /-- `input_buffer_lock` -/
  lock : Nat
  reading : Reading
  /-- the keys that were put into the buffer, each with whether it came when keys were missed -/
  received : List (InputKeyType × Bool)
  /-- what `GetChar` has returned -/
  returned : List InputKeyType

/-- `dequeue` has read that no node follows the first one. -/
def Reading.missesKeys : Reading → Bool
  | loaded _ _ next => next == 0
  | _ => false

namespace InputProcess

/-- `KeyboardHandler`, once the key is read. -/
def keyboardHandler (A : NodeSource) (key : InputKeyType) (p : InputProcess) : InputProcess :=
  if key.error then p
  else
    match p.buffer with
    | none => p
    | some q =>
      let r := q.enqueue A key p.heap
      { p with
        buffer := some r.1
        heap := r.2
        received := p.received ++ [(key, p.reading.missesKeys)] }

/-- The next access of `GetChar`. A buffer that is null is dereferenced: there is no next state. -/
def getChar (junk : UInt32) (p : InputProcess) : Option InputProcess :=
  match p.reading with
  | .outside => if p.lock = 0 then some { p with lock := 1, reading := .waiting } else some p
  | .waiting => p.buffer.map fun q =>
      if q.isempty then p else { p with reading := .dequeuing }
  | .dequeuing => p.buffer.map fun q =>
      if q.isempty then { p with reading := .taken ⟨junk, false⟩ }
      else { p with reading := .copied (p.heap.nodes q.first).element q.first }
  | .copied x a => p.buffer.map fun q =>
      { p with reading := .loaded x a (p.heap.nodes q.first).next }
  | .loaded x a next => p.buffer.map fun q =>
      { p with buffer := some { q with first := next }, reading := .unlinked x a }
  | .unlinked x a =>
      some { p with
        heap := { p.heap with live := p.heap.live.erase a }
        reading := .taken x }
  | .taken x => some { p with lock := 0, reading := .outside, returned := p.returned ++ [x] }

/-- `SelfProcessInit`: a new buffer, whose keys are counted from here. -/
def selfProcessInit (p : InputProcess) : InputProcess :=
  { p with buffer := some .empty, received := [], returned := [] }

end InputProcess

/-! ## The system -/

universe u

/-- The processes, and the one whose input `_current_process_cached_info` points to. -/
structure InputSystem (ι : Type u) where
  current : ι
  processes : ι → InputProcess

inductive InputEvent (ι : Type u) where
  /-- a tick that switches to a process -/
  | tick (next : ι)
  | scancode (input : UInt8)
  /-- the current process executes the next access of `GetChar` -/
  | getChar
  | selfProcessInit
  deriving DecidableEq, Repr

section System

variable {ι : Type u} [DecidableEq ι]

def InputSystem.onCurrent (s : InputSystem ι) (p : InputProcess) : InputSystem ι :=
  { s with processes := Function.update s.processes s.current p }

inductive InputStep (A : NodeSource) : InputSystem ι → InputEvent ι → InputSystem ι → Prop
  | tick {s : InputSystem ι} (next : ι) : InputStep A s (.tick next) { s with current := next }
  | scancode {s : InputSystem ι} (junk : UInt32) (input : UInt8) :
      InputStep A s (.scancode input) (s.onCurrent
        ((s.processes s.current).keyboardHandler A (keyboardSource junk input)))
  | getChar {s : InputSystem ι} {p : InputProcess} (junk : UInt32)
      (hStep : (s.processes s.current).getChar junk = some p) :
      InputStep A s .getChar (s.onCurrent p)
  | selfProcessInit {s : InputSystem ι} (hOutside : (s.processes s.current).reading = .outside) :
      InputStep A s .selfProcessInit (s.onCurrent (s.processes s.current).selfProcessInit)

/-- An event, whatever operator `new` answers. -/
def Called (s : InputSystem ι) (e : InputEvent ι) (s' : InputSystem ι) : Prop :=
  ∃ A, InputStep A s e s'

/-- Operator `new` has a node for the key that comes, if one does. -/
def Supplied (A : NodeSource) (s : InputSystem ι) : InputEvent ι → Prop
  | .scancode input => (pressed input).isSome → A.new (s.processes s.current).heap.live ≠ 0
  | _ => True

/-- An event for which operator `new` has a node. -/
def Served (s : InputSystem ι) (e : InputEvent ι) (s' : InputSystem ι) : Prop :=
  ∃ A, Supplied A s e ∧ InputStep A s e s'

theorem Served.called {s s' : InputSystem ι} {e : InputEvent ι} (h : Served s e s') :
    Called s e s' :=
  h.imp fun _ hStep => hStep.2

/-- No process has a buffer yet. -/
def InputSystem.start (current : ι) (heap : ι → NodeHeap InputKeyType) (lock : ι → Nat) :
    InputSystem ι where
  current := current
  processes i := ⟨none, heap i, lock i, .outside, [], []⟩

end System

/-! ## What is still to be returned -/

/-- The keys that `GetChar` returns if no more come, from the nodes of the buffer and from what the
call has read of them already. -/
inductive Holding (h : NodeHeap InputKeyType) (q : Queue) : Reading → List InputKeyType → Prop
  | outside {ps : List Nat} {l : List InputKeyType} (hHolds : q.Holds h ps l) :
      Holding h q .outside l
  | waiting {ps : List Nat} {l : List InputKeyType} (hHolds : q.Holds h ps l) :
      Holding h q .waiting l
  | dequeuing {ps : List Nat} {x : InputKeyType} {l : List InputKeyType}
      (hHolds : q.Holds h ps (x :: l)) : Holding h q .dequeuing (x :: l)
  | copied {a : Nat} {ps : List Nat} {x : InputKeyType} {l : List InputKeyType}
      (hHolds : q.Holds h (a :: ps) (x :: l)) : Holding h q (.copied x a) (x :: l)
  | loaded {a b : Nat} {ps : List Nat} {x : InputKeyType} {l : List InputKeyType}
      (hHolds : q.Holds h (a :: b :: ps) (x :: l)) : Holding h q (.loaded x a b) (x :: l)
  /-- the keys behind the first one are the ones that are missed -/
  | last {a : Nat} {ps : List Nat} {x : InputKeyType} {l : List InputKeyType}
      (hHolds : q.Holds h (a :: ps) (x :: l)) : Holding h q (.loaded x a 0) [x]
  | unlinked {a : Nat} {ps : List Nat} {x : InputKeyType} {l : List InputKeyType}
      (hHolds : q.Holds h ps l) (hNode : a ∉ ps) (hLive : a ∈ h.live) :
      Holding h q (.unlinked x a) (x :: l)
  | taken {ps : List Nat} {x : InputKeyType} {l : List InputKeyType} (hHolds : q.Holds h ps l) :
      Holding h q (.taken x) (x :: l)

section Steps

variable {A : NodeSource} {h : NodeHeap InputKeyType} {q : Queue} {reading : Reading}
  {l rest : List InputKeyType} {ps : List Nat} {x key : InputKeyType} {a b : Nat}
  {p p' : InputProcess} {junk : UInt32}

/-- A key that comes is behind the others, unless the end of the list is read already. -/
theorem Holding.enqueue (hNew : A.new h.live ≠ 0) (hHolding : Holding h q reading rest) :
    Holding (q.enqueue A key h).2 (q.enqueue A key h).1 reading
      (if reading.missesKeys then rest else rest ++ [key]) := by
  cases hHolding with
  | outside hHolds =>
    obtain ⟨q', h', hEq, -, hHolds', -⟩ := hHolds.enqueue A key hNew
    rw [hEq]
    exact .outside hHolds'
  | waiting hHolds =>
    obtain ⟨q', h', hEq, -, hHolds', -⟩ := hHolds.enqueue A key hNew
    rw [hEq]
    exact .waiting hHolds'
  | dequeuing hHolds =>
    obtain ⟨q', h', hEq, -, hHolds', -⟩ := hHolds.enqueue A key hNew
    rw [hEq]
    exact .dequeuing hHolds'
  | copied hHolds =>
    obtain ⟨q', h', hEq, -, hHolds', -⟩ := hHolds.enqueue A key hNew
    rw [hEq]
    exact .copied hHolds'
  | @loaded a b ps x l hHolds =>
    have hMore : (Reading.loaded x a b).missesKeys = false := by
      simpa [Reading.missesKeys] using hHolds.chain.2.2.2.1
    obtain ⟨q', h', hEq, -, hHolds', -⟩ := hHolds.enqueue A key hNew
    rw [hEq, hMore]
    exact .loaded hHolds'
  | last hHolds =>
    obtain ⟨q', h', hEq, -, hHolds', -⟩ := hHolds.enqueue A key hNew
    rw [hEq]
    exact .last hHolds'
  | @unlinked a ps x l hHolds hNode hLive =>
    obtain ⟨q', h', hEq, hLive', hHolds', -⟩ := hHolds.enqueue A key hNew
    have hOther : a ≠ A.new h.live := fun hSame => A.fresh h.live hNew (hSame ▸ hLive)
    rw [hEq]
    refine .unlinked hHolds' ?_ (hLive' ▸ List.mem_cons_of_mem _ hLive)
    simp [hNode, hOther]
  | taken hHolds =>
    obtain ⟨q', h', hEq, -, hHolds', -⟩ := hHolds.enqueue A key hNew
    rw [hEq]
    exact .taken hHolds'

/-- The first node of a queue that holds something. -/
theorem first_node (hThreads : q.Threads h ps (x :: l)) :
    ∃ a ps', ps = a :: ps' ∧ q.first = a ∧ (h.nodes a).element = x ∧ a ∈ h.live ∧
      a ∉ ps' ∧ q.isempty = false := by
  obtain ⟨hChain, hElements, hNodup, hLive⟩ := hThreads
  cases ps with
  | nil => cases hElements
  | cons a ps' =>
    obtain ⟨hFirst, hne, -⟩ := hChain
    refine ⟨a, ps', rfl, hFirst, (List.cons.inj hElements).1, hLive a List.mem_cons_self,
      (List.nodup_cons.mp hNodup).1, ?_⟩
    simpa [Queue.isempty, hFirst] using hne

/-- The queue after its first node was unlinked. -/
theorem holds_tail (hHolds : q.Holds h (a :: ps) (x :: l)) :
    Queue.Holds h { q with first := (h.nodes a).next } ps l := by
  obtain ⟨p, ps', q', hNodes, hDequeue, hRest⟩ := hHolds.dequeue_cons
  obtain ⟨rfl, rfl⟩ := List.cons.inj hNodes
  obtain ⟨b, bs, hCons, hFirst, -, -, -, hFull⟩ := first_node hHolds.toThreads
  obtain ⟨rfl, -⟩ := List.cons.inj hCons
  rw [Queue.dequeue, hFull, hFirst] at hDequeue
  obtain ⟨-, hPair⟩ := Prod.mk.inj hDequeue
  obtain ⟨rfl, -⟩ := Prod.mk.inj hPair
  exact hRest.frame (fun _ _ => rfl) fun d hd =>
    hHolds.live d (List.mem_cons_of_mem _ hd)

/-- One access of `GetChar` changes what is to be returned only when it returns. -/
theorem Holding.getChar (hBuffer : p.buffer = some q) (hHolding : Holding p.heap q p.reading rest)
    (hStep : p.getChar junk = some p') : ∃ q' rest', p'.buffer = some q' ∧
      Holding p'.heap q' p'.reading rest' ∧ p'.returned ++ rest' = p.returned ++ rest ∧
      p'.received = p.received := by
  obtain ⟨buffer, heap, lock, reading, received, returned⟩ := p
  obtain rfl : buffer = some q := hBuffer
  dsimp only at hHolding ⊢
  cases hHolding with
  | outside hHolds =>
    simp only [InputProcess.getChar] at hStep
    split at hStep
    · cases hStep
      exact ⟨q, rest, rfl, .waiting hHolds, rfl, rfl⟩
    · cases hStep
      exact ⟨q, rest, rfl, .outside hHolds, rfl, rfl⟩
  | waiting hHolds =>
    simp only [InputProcess.getChar, Option.map_some, Option.some.injEq] at hStep
    split at hStep
    · subst hStep
      exact ⟨q, rest, rfl, .waiting hHolds, rfl, rfl⟩
    · rename_i hFull
      subst hStep
      cases rest with
      | nil => exact absurd (hHolds.isempty_iff.mpr rfl) hFull
      | cons x l => exact ⟨q, x :: l, rfl, .dequeuing hHolds, rfl, rfl⟩
  | dequeuing hHolds =>
    obtain ⟨a, ps, rfl, hFirst, hElement, -, -, hFull⟩ := first_node hHolds.toThreads
    simp only [InputProcess.getChar, Option.map_some, hFull, hFirst, hElement,
      Bool.false_eq_true, if_false, Option.some.injEq] at hStep
    subst hStep
    exact ⟨q, _, rfl, .copied hHolds, rfl, rfl⟩
  | @copied a ps x l hHolds =>
    have hNext := hHolds.chain.2.2
    simp only [InputProcess.getChar, Option.map_some, hHolds.chain.1, Option.some.injEq] at hStep
    subst hStep
    cases ps with
    | nil =>
      obtain rfl : l = [] := List.length_eq_zero_iff.mp (by simpa using hHolds.length.symm)
      have hEnd : (heap.nodes a).next = 0 := hNext
      rw [hEnd]
      exact ⟨q, _, rfl, .last hHolds, rfl, rfl⟩
    | cons b ps =>
      rw [hNext.1]
      exact ⟨q, _, rfl, .loaded hHolds, rfl, rfl⟩
  | @loaded a b ps x l hHolds =>
    obtain rfl := Option.some.inj hStep
    have hTail := holds_tail hHolds
    rw [hHolds.chain.2.2.1] at hTail
    refine ⟨_, _, rfl, .unlinked hTail (List.nodup_cons.mp hHolds.nodup).1 ?_, rfl, rfl⟩
    exact hHolds.live a List.mem_cons_self
  | @last a ps x l hHolds =>
    obtain rfl := Option.some.inj hStep
    have hNone : Queue.Holds heap { q with first := 0 } [] [] :=
      ⟨⟨rfl, rfl, List.nodup_nil, fun _ hMem => (nomatch hMem)⟩, fun _ hMem => (nomatch hMem)⟩
    refine ⟨_, _, rfl, .unlinked hNone List.not_mem_nil ?_, rfl, rfl⟩
    exact hHolds.live a List.mem_cons_self
  | @unlinked a ps x l hHolds hNode hLive =>
    obtain rfl := Option.some.inj hStep
    refine ⟨q, _, rfl, .taken (hHolds.frame (fun _ _ => rfl) fun d hd => ?_), rfl, rfl⟩
    have hne : d ≠ a := fun hSame => hNode (hSame ▸ hd)
    exact (List.mem_erase_of_ne hne).mpr (hHolds.live d hd)
  | taken hHolds =>
    obtain rfl := Option.some.inj hStep
    exact ⟨q, _, rfl, .outside hHolds, List.append_assoc .., rfl⟩

end Steps

/-! ## What a process is given -/

/-- The keys that were not missed. -/
def kept (received : List (InputKeyType × Bool)) : List InputKeyType :=
  (received.filter fun k => !k.2).map Prod.fst

/-- A process with a buffer has the keys that were not missed, one without has none. -/
inductive Given (p : InputProcess) : Prop
  | none (hBuffer : p.buffer = .none) (hReceived : p.received = []) (hReturned : p.returned = [])
      (hReading : p.reading = .outside ∨ p.reading = .waiting)
  | some {q : Queue} {rest : List InputKeyType} (hBuffer : p.buffer = .some q)
      (hHolding : Holding p.heap q p.reading rest) (hKept : p.returned ++ rest = kept p.received)

section Given

variable {A : NodeSource} {p p' : InputProcess} {key : InputKeyType} {junk : UInt32}
  {received : List (InputKeyType × Bool)}

theorem kept_append (key : InputKeyType) (missed : Bool) :
    kept (received ++ [(key, missed)]) = kept received ++ if missed then [] else [key] := by
  cases missed <;> simp [kept]

theorem kept_eq_iff : kept received = received.map Prod.fst ↔ ∀ k ∈ received, k.2 = false := by
  constructor
  · intro hSame
    have hLength : (received.filter fun k => !k.2).length = received.length := by
      simpa [kept] using congrArg List.length hSame
    intro k hk
    simpa using List.length_filter_eq_length_iff.mp hLength k hk
  · intro hNone
    rw [kept, List.filter_eq_self.mpr fun k hk => by simp [hNone k hk]]

theorem Given.keyboardHandler (hNew : key.error = false → A.new p.heap.live ≠ 0) (h : Given p) :
    Given (p.keyboardHandler A key) := by
  rw [InputProcess.keyboardHandler]
  split
  · exact h
  · rename_i hKey
    cases h with
    | none hBuffer hReceived hReturned hReading =>
      rw [hBuffer]
      exact .none hBuffer hReceived hReturned hReading
    | @some q rest hBuffer hHolding hKept =>
      rw [hBuffer]
      refine .some rfl (hHolding.enqueue (hNew (Bool.not_eq_true _ ▸ hKey))) ?_
      dsimp only
      rw [kept_append, ← hKept]
      cases p.reading.missesKeys <;> simp

theorem Given.getChar (h : Given p) (hStep : p.getChar junk = .some p') : Given p' := by
  cases h with
  | none hBuffer hReceived hReturned hReading =>
    rcases hReading with hReading | hReading
    · simp only [InputProcess.getChar, hReading] at hStep
      split at hStep
      · cases hStep
        exact .none hBuffer hReceived hReturned (.inr rfl)
      · cases hStep
        exact .none hBuffer hReceived hReturned (.inl hReading)
    · simp [InputProcess.getChar, hReading, hBuffer] at hStep
  | some hBuffer hHolding hKept =>
    obtain ⟨q', rest', hBuffer', hHolding', hReturned, hReceived⟩ :=
      hHolding.getChar hBuffer hStep
    exact .some hBuffer' hHolding' (by rw [hReturned, hKept, hReceived])

theorem Given.selfProcessInit (h : p.reading = .outside) : Given p.selfProcessInit := by
  have hEmpty : Holding p.heap .empty p.reading [] := h ▸ .outside (.empty p.heap)
  exact .some rfl hEmpty rfl

theorem getChar_keeps (hStep : p.getChar junk = .some p') :
    p'.received = p.received ∧ p'.buffer.isSome = p.buffer.isSome := by
  obtain ⟨buffer, heap, lock, reading, received, returned⟩ := p
  cases reading with
  | outside =>
    simp only [InputProcess.getChar] at hStep
    split at hStep <;> cases hStep <;> exact ⟨rfl, rfl⟩
  | waiting =>
    obtain ⟨q, hq, rfl⟩ := Option.map_eq_some_iff.mp hStep
    split <;> exact ⟨rfl, rfl⟩
  | dequeuing =>
    obtain ⟨q, hq, rfl⟩ := Option.map_eq_some_iff.mp hStep
    split <;> exact ⟨rfl, rfl⟩
  | copied x a =>
    obtain ⟨q, hq, rfl⟩ := Option.map_eq_some_iff.mp hStep
    exact ⟨rfl, rfl⟩
  | loaded x a next =>
    obtain ⟨q, hq, rfl⟩ := Option.map_eq_some_iff.mp hStep
    exact ⟨rfl, (congrArg Option.isSome hq).symm⟩
  | unlinked x a =>
    cases hStep
    exact ⟨rfl, rfl⟩
  | taken x =>
    cases hStep
    exact ⟨rfl, rfl⟩

end Given

/-! ## Runs -/

/-- What `GetChar` returns of a key. -/
def InputKeyType.char (key : InputKeyType) : UInt8 := key.character.toUInt8

namespace InputProcess

/-- The characters that came since the process made its buffer, if it did. -/
def text (p : InputProcess) : Option (List UInt8) :=
  p.buffer.map fun _ => p.received.map fun k => k.1.char

theorem text_keyboardHandler (A : NodeSource) (junk : UInt32) (input : UInt8)
    (p : InputProcess) : (p.keyboardHandler A (keyboardSource junk input)).text =
      p.text.map (· ++ (pressed input).toList) := by
  cases hPressed : pressed input with
  | none =>
    rw [keyboardSource_none hPressed, keyboardHandler, if_pos rfl]
    simp
  | some c =>
    rw [keyboardSource_some hPressed, keyboardHandler, if_neg Bool.false_ne_true]
    cases hBuffer : p.buffer with
    | none => simp [text, hBuffer]
    | some q => simp [text, hBuffer, InputKeyType.char]

theorem text_getChar {junk : UInt32} {p p' : InputProcess} (hStep : p.getChar junk = some p') :
    p'.text = p.text := by
  obtain ⟨hReceived, hBuffer⟩ := getChar_keeps hStep
  rw [text, text, hReceived]
  cases hOld : p.buffer <;> cases hNew : p'.buffer <;> simp_all

end InputProcess

section Runs

variable {ι : Type u} [DecidableEq ι]

/-- The events alone say what comes for the process `i`: the state is the process that is the
current one, with the characters that came for `i` since it made its buffer. -/
def follow (i : ι) (t : ι × Option (List UInt8)) : InputEvent ι → ι × Option (List UInt8)
  | .tick next => (next, t.2)
  | .scancode input => (t.1, if t.1 = i then t.2.map (· ++ (pressed input).toList) else t.2)
  | .getChar => t
  | .selfProcessInit => (t.1, if t.1 = i then some [] else t.2)

def typedTo (i current : ι) (es : List (InputEvent ι)) : Option (List UInt8) :=
  (es.foldl (follow i) (current, none)).2

/-- A process is as the events say, and has the keys that it was given. -/
structure Followed (i : ι) (t : ι × Option (List UInt8)) (s : InputSystem ι) : Prop where
  current : s.current = t.1
  text : (s.processes i).text = t.2
  given : Given (s.processes i)

variable {i current : ι} {s s' : InputSystem ι} {t : ι × Option (List UInt8)} {e : InputEvent ι}
  {es : List (InputEvent ι)} {heap : ι → NodeHeap InputKeyType} {lock : ι → Nat}

/-- A step of another process does not concern this one. -/
theorem Followed.other {p : InputProcess} (h : Followed i t s) (hOther : s.current ≠ i) :
    Followed i t (s.onCurrent p) := by
  have hSame : (s.onCurrent p).processes i = s.processes i := Function.update_of_ne hOther.symm ..
  exact ⟨h.current, hSame ▸ h.text, hSame ▸ h.given⟩

theorem Followed.own {p : InputProcess} (hCurrent : s.current = t.1) (hOwn : s.current = i)
    (hText : p.text = t.2) (hGiven : Given p) : Followed i t (s.onCurrent p) := by
  have hSame : (s.onCurrent p).processes i = p := by
    rw [← hOwn]
    exact Function.update_self ..
  exact ⟨hCurrent, by rwa [hSame], by rwa [hSame]⟩

theorem Followed.step (h : Followed i t s) (hServed : Served s e s') :
    Followed i (follow i t e) s' := by
  obtain ⟨A, hSupplied, hStep⟩ := hServed
  cases hStep with
  | tick next => exact ⟨rfl, h.text, h.given⟩
  | scancode junk input =>
    by_cases hOwn : s.current = i
    · have hText := InputProcess.text_keyboardHandler A junk input (s.processes s.current)
      refine .own h.current hOwn ?_ ?_
      · rw [hText, follow, if_pos (h.current ▸ hOwn), hOwn, h.text]
      · refine (hOwn ▸ h.given).keyboardHandler fun hKey => hSupplied ?_
        rw [Option.isSome_iff_ne_none]
        intro hNone
        rw [keyboardSource_none hNone] at hKey
        cases hKey
    · rw [follow, if_neg (h.current ▸ hOwn)]
      exact h.other hOwn
  | @getChar p junk hGet =>
    by_cases hOwn : s.current = i
    · refine .own h.current hOwn ?_ ((hOwn ▸ h.given).getChar hGet)
      rw [InputProcess.text_getChar hGet, hOwn]
      exact h.text
    · exact h.other hOwn
  | selfProcessInit hOutside =>
    by_cases hOwn : s.current = i
    · refine .own h.current hOwn ?_ (.selfProcessInit hOutside)
      rw [follow, if_pos (h.current ▸ hOwn)]
      rfl
    · rw [follow, if_neg (h.current ▸ hOwn)]
      exact h.other hOwn

theorem followed_of_run (hRun : Run Served (.start current heap lock) es s) (i : ι) :
    Followed i (es.foldl (follow i) (current, none)) s := by
  induction hRun with
  | refl => exact ⟨rfl, rfl, .none rfl rfl rfl (.inl rfl)⟩
  | tail prior last ih =>
    rw [List.foldl_append]
    exact ih.step last

/-- Between two calls of `dequeue` the buffer holds what was given and not returned. -/
theorem held_of_run (hRun : Run Served (.start current heap lock) es s) (i : ι)
    {text : List UInt8} (hTyped : typedTo i current es = some text)
    (hBetween : (s.processes i).reading = .outside ∨ (s.processes i).reading = .waiting) :
    ∃ q ps l, (s.processes i).buffer = some q ∧ q.Holds (s.processes i).heap ps l ∧
      (s.processes i).received.map (fun k => k.1.char) = text ∧
      (s.processes i).returned ++ l = kept (s.processes i).received := by
  obtain ⟨-, hText, hGiven⟩ := followed_of_run hRun i
  have hSome : (s.processes i).text = some text := hText.trans hTyped
  cases hGiven with
  | none hBuffer => simp [InputProcess.text, hBuffer] at hSome
  | @some q rest hBuffer hHolding hKept =>
    have hReceived : (s.processes i).received.map (fun k => k.1.char) = text := by
      simpa [InputProcess.text, hBuffer] using hSome
    rcases hBetween with hReading | hReading
    · rw [hReading] at hHolding
      cases hHolding with
      | outside hHolds => exact ⟨q, _, rest, hBuffer, hHolds, hReceived, hKept⟩
    · rw [hReading] at hHolding
      cases hHolding with
      | waiting hHolds => exact ⟨q, _, rest, hBuffer, hHolds, hReceived, hKept⟩

/-- What a process has got from `GetChar`, with what is in its buffer, are the keys that came while
it was the current one, in their order, without those that came while `dequeue` missed them. -/
theorem received_of_run (hRun : Run Served (.start current heap lock) es s) (i : ι)
    {text : List UInt8} (hTyped : typedTo i current es = some text)
    (hBetween : (s.processes i).reading = .outside ∨ (s.processes i).reading = .waiting) :
    ∃ q ps l, (s.processes i).buffer = some q ∧ q.Holds (s.processes i).heap ps l ∧
      (s.processes i).received.map (fun k => k.1.char) = text ∧
      (s.processes i).returned ++ l = kept (s.processes i).received ∧
      (((s.processes i).returned ++ l).map InputKeyType.char = text ↔
        ∀ k ∈ (s.processes i).received, k.2 = false) := by
  obtain ⟨q, ps, l, hBuffer, hHolds, hReceived, hKept⟩ := held_of_run hRun i hTyped hBetween
  refine ⟨q, ps, l, hBuffer, hHolds, hReceived, hKept, ?_⟩
  rw [hKept, ← kept_eq_iff, ← hReceived]
  constructor
  · intro hAll
    have hLength := congrArg List.length hAll
    simp only [kept, List.length_map] at hLength
    rw [kept, List.filter_eq_self.mpr (by simpa using hLength)]
  · intro hAll
    rw [hAll, List.map_map]
    rfl

/-- Take one event with the pool of small blocks, while a block of it is free, and one content of
the stack. -/
def inputCall (junk : UInt32) (s : InputSystem ι) : InputEvent ι → Option (InputSystem ι)
  | .tick next => some { s with current := next }
  | .scancode input =>
    if (s.processes s.current).heap.live.length < 100 then
      some (s.onCurrent
        ((s.processes s.current).keyboardHandler kernelPool (keyboardSource junk input)))
    else none
  | .getChar => ((s.processes s.current).getChar junk).map s.onCurrent
  | .selfProcessInit =>
    if (s.processes s.current).reading = .outside then
      some (s.onCurrent (s.processes s.current).selfProcessInit)
    else none

theorem served_of_inputCall {junk : UInt32} (h : inputCall junk s e = some s') :
    Served s e s' := by
  refine ⟨kernelPool, ?_, ?_⟩
  · cases e with
    | scancode input =>
      rw [inputCall] at h
      split at h
      · rename_i hFew
        exact fun _ => NodeSource.fastbins_ne_zero (by decide) hFew
      · cases h
    | _ => trivial
  · cases e with
    | tick next =>
      cases h
      exact .tick next
    | scancode input =>
      rw [inputCall] at h
      split at h
      · cases h
        exact .scancode junk input
      · cases h
    | getChar =>
      obtain ⟨p, hStep, rfl⟩ := Option.map_eq_some_iff.mp h
      exact .getChar junk hStep
    | selfProcessInit =>
      rw [inputCall] at h
      split at h
      · rename_i hOutside
        cases h
        exact .selfProcessInit hOutside
      · cases h

end Runs

/-- `A` is pressed and released, and `S` comes when the end of the list is read: it is missed. -/
def missedKey : List (InputEvent Bool) :=
  [.selfProcessInit, .scancode 0x1e, .scancode 0x9e, .getChar, .tick true, .tick false, .getChar,
    .getChar, .getChar, .scancode 0x1f, .getChar, .getChar, .getChar]

theorem received_missedKey : ∃ s : InputSystem Bool,
    Run Served (.start false (fun _ => ⟨fun _ => ⟨⟨0, false⟩, 0⟩, []⟩) fun _ => 0) missedKey s ∧
    ∃ q ps l, (s.processes false).buffer = some q ∧ q.Holds (s.processes false).heap ps l ∧
      (s.processes false).received.map (fun k => k.1.char) = [65, 83] ∧
      (s.processes false).returned ++ l = kept (s.processes false).received ∧
      (((s.processes false).returned ++ l).map InputKeyType.char = [65, 83] ↔
        ∀ k ∈ (s.processes false).received, k.2 = false) := by
  have hEnd : (missedKey.foldlM (inputCall 0) (.start false
      (fun _ => ⟨fun _ => ⟨⟨0, false⟩, 0⟩, []⟩) fun _ => 0)).map
        (fun s => (s.processes false).reading) = some .outside := by
    decide +kernel
  obtain ⟨s, hs, hReading⟩ := Option.map_eq_some_iff.mp hEnd
  have hRun := Run.of_foldlM (fun _ _ _ => served_of_inputCall) hs
  exact ⟨s, hRun, received_of_run hRun false (by decide +kernel) (.inl hReading)⟩

/-! ## The lock -/

/-- Nothing sets `input_buffer_lock` when a process is made. What the memory held decides whether
the lock can ever be taken. -/
structure Locked (lock : Nat) (p : InputProcess) : Prop where
  free : lock = 0 → (p.lock = 0 ↔ p.reading = .outside)
  stuck : lock ≠ 0 → p.reading = .outside ∧ p.lock = lock ∧ p.returned = []

section Lock

variable {ι : Type u} [DecidableEq ι] {i current : ι} {s s' : InputSystem ι} {e : InputEvent ι}
  {es : List (InputEvent ι)} {heap : ι → NodeHeap InputKeyType} {lock : ι → Nat} {n : Nat}
  {A : NodeSource} {p p' : InputProcess} {key : InputKeyType} {junk : UInt32} {q : Queue}
  {ps : List Nat} {x : InputKeyType} {l : List InputKeyType}

theorem Locked.keyboardHandler (h : Locked n p) : Locked n (p.keyboardHandler A key) := by
  rw [InputProcess.keyboardHandler]
  split
  · exact h
  · split
    · exact h
    · exact ⟨h.free, h.stuck⟩

/-- Inside of `GetChar` the lock is held. -/
theorem Locked.inside (h : Locked n p) (hInside : p.reading ≠ .outside) (hLock : p'.lock = p.lock)
    (hStill : p'.reading ≠ .outside) : Locked n p' where
  free hZero := by
    rw [hLock, h.free hZero]
    exact iff_of_false hInside hStill
  stuck hne := absurd (h.stuck hne).1 hInside

theorem Locked.getChar (h : Locked n p) (hStep : p.getChar junk = some p') : Locked n p' := by
  obtain ⟨buffer, heap, lock, reading, received, returned⟩ := p
  cases reading with
  | outside =>
    simp only [InputProcess.getChar] at hStep
    split at hStep
    · rename_i hZero
      cases hStep
      refine ⟨fun _ => ⟨nofun, nofun⟩, fun hne => ?_⟩
      exact absurd ((h.stuck hne).2.1.symm.trans hZero) hne
    · cases hStep
      exact h
  | waiting =>
    obtain ⟨q, -, rfl⟩ := Option.map_eq_some_iff.mp hStep
    split
    · exact h
    · exact h.inside nofun rfl nofun
  | dequeuing =>
    obtain ⟨q, -, rfl⟩ := Option.map_eq_some_iff.mp hStep
    split <;> exact h.inside nofun rfl nofun
  | copied x a =>
    obtain ⟨q, -, rfl⟩ := Option.map_eq_some_iff.mp hStep
    exact h.inside nofun rfl nofun
  | loaded x a next =>
    obtain ⟨q, -, rfl⟩ := Option.map_eq_some_iff.mp hStep
    exact h.inside nofun rfl nofun
  | unlinked x a =>
    cases hStep
    exact h.inside nofun rfl nofun
  | taken x =>
    cases hStep
    exact ⟨fun _ => ⟨fun _ => rfl, fun _ => rfl⟩, fun hne => nomatch (h.stuck hne).1⟩

theorem Locked.step (h : ∀ i, Locked (lock i) (s.processes i)) (hCalled : Called s e s')
    (i : ι) :
    Locked (lock i) (s'.processes i) := by
  have hCurrent : ∀ p, Locked (lock s.current) p →
      Locked (lock i) ((s.onCurrent p).processes i) := by
    intro p hp
    dsimp only [InputSystem.onCurrent]
    by_cases hOwn : i = s.current
    · subst hOwn
      rwa [Function.update_self]
    · rw [Function.update_of_ne hOwn]
      exact h i
  obtain ⟨A, hStep⟩ := hCalled
  cases hStep with
  | tick next => exact h i
  | scancode junk input => exact hCurrent _ (h s.current).keyboardHandler
  | getChar junk hGet => exact hCurrent _ ((h s.current).getChar hGet)
  | selfProcessInit hOutside =>
    refine hCurrent _ ⟨(h s.current).free, fun hne => ?_⟩
    exact ⟨hOutside, ((h s.current).stuck hne).2.1, rfl⟩

theorem locked_of_run (hRun : Run Called s es s') (h : ∀ i, Locked (lock i) (s.processes i)) :
    ∀ i, Locked (lock i) (s'.processes i) :=
  hRun.invariant (I := fun s => ∀ i, Locked (lock i) (s.processes i)) h
    fun _ _ _ hLocked hCalled => Locked.step hLocked hCalled

/-- So many accesses of `GetChar` in a row. -/
def InputProcess.getChars (junk : UInt32) : Nat → InputProcess → Option InputProcess
  | 0, p => some p
  | n + 1, p => (p.getChar junk).bind (getChars junk n)

theorem run_getChars (hChars : (s.processes s.current).getChars junk n = some p) :
    Run Called s (List.replicate n .getChar) (s.onCurrent p) := by
  induction n generalizing s with
  | zero =>
    obtain rfl := Option.some.inj hChars
    rw [InputSystem.onCurrent, Function.update_eq_self]
    exact .refl
  | succ n ih =>
    obtain ⟨p', hFirst, hRest⟩ := Option.bind_eq_some_iff.mp hChars
    have hSelf : (s.onCurrent p').processes (s.onCurrent p').current = p' := Function.update_self ..
    have hRun := ih (hSelf.symm ▸ hRest)
    rw [InputSystem.onCurrent, InputSystem.onCurrent, Function.update_idem] at hRun
    exact .cons ⟨kernelPool, .getChar junk hFirst⟩ hRun

/-- A call that nothing comes between returns the first key. -/
theorem getChars_alone (hBuffer : p.buffer = some q) (hThreads : q.Threads p.heap ps (x :: l))
    (hReading : p.reading = .outside) (hLock : p.lock = 0) :
    ∃ p', p.getChars 0 7 = some p' ∧ p'.returned = p.returned ++ [x] := by
  obtain ⟨buffer, heap, lock, reading, received, returned⟩ := p
  obtain ⟨a, ps', -, hFirst, hElement, -, -, hFull⟩ := first_node hThreads
  dsimp only at hBuffer hReading hLock hElement
  subst hBuffer hReading hLock
  simp [InputProcess.getChars, InputProcess.getChar, hFull, hFirst, hElement]

/-- A key that waits in the buffer is returned to its process if the lock of the process happened
to be zero when it was made. Otherwise the process never gets any key. -/
theorem served_iff (hRun : Run Called (.start current heap lock) es s)
    (hOutside : (s.processes s.current).reading = .outside)
    (hBuffer : (s.processes s.current).buffer = some q)
    (hThreads : q.Threads (s.processes s.current).heap ps (x :: l)) :
    (lock s.current = 0 → ∃ n s', Run Called s (List.replicate n .getChar) s' ∧
      (s'.processes s.current).returned = (s.processes s.current).returned ++ [x]) ∧
    (lock s.current ≠ 0 → ∀ es' s', Run Called s es' s' →
      (s'.processes s.current).returned = []) := by
  have hStart : ∀ i, Locked (lock i) ((InputSystem.start current heap lock).processes i) :=
    fun i => ⟨fun hZero => iff_of_true hZero rfl, fun _ => ⟨rfl, rfl, rfl⟩⟩
  have hLocked := locked_of_run hRun hStart
  constructor
  · intro hZero
    have hFree := ((hLocked s.current).free hZero).mpr hOutside
    obtain ⟨p', hChars, hReturned⟩ := getChars_alone hBuffer hThreads hOutside hFree
    have hSelf : (s.onCurrent p').processes s.current = p' := Function.update_self ..
    exact ⟨7, _, run_getChars hChars, by rwa [hSelf]⟩
  · intro hne es' s' hLater
    exact ((locked_of_run hLater hLocked s.current).stuck hne).2.2

end Lock

/-- With a lock that was zero, and with one that was not. -/
theorem served_fresh : ∃ s : InputSystem Bool, s.current = false ∧
    Run Called (.start false (fun _ => ⟨fun _ => ⟨⟨0, false⟩, 0⟩, []⟩) fun i => i.toNat)
      [.selfProcessInit, .scancode 0x1e] s ∧
    (false.toNat = 0 → ∃ n s', Run Called s (List.replicate n .getChar) s' ∧
      (s'.processes false).returned = (s.processes false).returned ++ [⟨65, false⟩]) ∧
    (false.toNat ≠ 0 → ∀ es' s', Run Called s es' s' → (s'.processes false).returned = []) := by
  have hEnd : ([.selfProcessInit, .scancode 0x1e].foldlM (inputCall 0) (.start false
      (fun _ => ⟨fun _ => ⟨⟨0, false⟩, 0⟩, []⟩) fun i => i.toNat)).map (fun s => (s.current,
        (s.processes false).reading, (s.processes false).returned,
        kept (s.processes false).received)) = some (false, .outside, [], [⟨65, false⟩]) := by
    decide +kernel
  obtain ⟨s, hs, hState⟩ := Option.map_eq_some_iff.mp hEnd
  simp only [Prod.mk.injEq] at hState
  obtain ⟨hCurrent, hReading, hReturned, hKept⟩ := hState
  have hRun := Run.of_foldlM (fun _ _ _ => served_of_inputCall) hs
  have hTyped : typedTo false false [.selfProcessInit, .scancode 0x1e] = some [65] := by
    decide +kernel
  obtain ⟨q, ps, l, hBuffer, hHolds, -, hHeld⟩ := held_of_run hRun false hTyped (.inl hReading)
  rw [hReturned, hKept, List.nil_append] at hHeld
  subst hHeld
  have hCalled := hRun.mono fun _ _ _ => Served.called
  have hServed := served_iff hCalled (hCurrent ▸ hReading) (hCurrent ▸ hBuffer)
    (hCurrent ▸ hHolds.toThreads)
  rw [hCurrent] at hServed
  exact ⟨s, hCurrent, hCalled, hServed⟩

/-! ## A line -/

section Lines

variable {maxLen : Nat} {keys more text : List UInt8} {l l' : Line} {buffer : Nat → UInt8}

/-- A line that is finished is not changed by the keys behind it. -/
theorem getString_append (h : getString maxLen keys l = some l') :
    getString maxLen (keys ++ more) l = some l' := by
  induction keys generalizing l with
  | nil =>
    rw [getString] at h
    split_ifs at h with hRoom
    cases more with
    | nil => rw [List.append_nil, getString, if_neg hRoom, h]
    | cons c more => rw [List.nil_append, getString, if_neg hRoom, h]
  | cons c keys ih =>
    rw [List.cons_append, getString]
    rw [getString] at h
    split_ifs at h ⊢ with hRoom hEnd
    · exact h
    · exact ih h
    · exact h

theorem edited_of_no_backspace (h : 8 ∉ keys) : edited keys = keys := by
  induction keys using List.reverseRecOn with
  | nil => rfl
  | append_singleton keys c ih =>
    simp only [List.mem_append, List.mem_singleton, not_or] at h
    rw [edited_concat, ih h.1, edit, if_neg (Ne.symm h.2)]

theorem processed_of_no_backspace {past : List UInt8} (hPast : past.length ≤ maxLen)
    (h : 8 ∉ keys) : processed maxLen past keys =
      (keys.takeWhile (· ≠ 10)).take (maxLen - past.length) := by
  induction keys generalizing past with
  | nil => simp [processed]
  | cons c keys ih =>
    rw [List.mem_cons, not_or] at h
    obtain ⟨hHead, hTail⟩ := h
    rw [processed, edit, if_neg (Ne.symm hHead)]
    by_cases hEnd : c = 10
    · simp [hEnd]
    · by_cases hRoom : past.length < maxLen
      · have hLength : (past ++ [c]).length = past.length + 1 := List.length_append
        have hLeft : maxLen - past.length = maxLen - (past.length + 1) + 1 := by omega
        rw [if_pos ⟨hRoom, hEnd⟩, ih (by omega) hTail, hLength, hLeft,
          List.takeWhile_cons_of_pos (by simpa), List.take_succ_cons]
      · have hFull : maxLen - past.length = 0 := by omega
        rw [if_neg fun hGo => hRoom hGo.1, hFull, List.take_zero]

/-- A line without backspaces is in the buffer as it was typed. -/
theorem textOf_of_no_backspace (hZero : ∀ i ≤ maxLen, buffer i = 0) (hNul : 0 ∉ keys)
    (hBack : 8 ∉ keys) (h : getString maxLen keys (.start buffer) = some l) :
    TextOf l.buffer ((keys.takeWhile (· ≠ 10)).take maxLen) := by
  have hKeys : ∀ c ∈ keys, c ≠ 0 := fun c hMem hc => hNul (hc ▸ hMem)
  obtain ⟨longest, last, hHolds, hLongest, hMax, hLast⟩ := getString_start hZero hKeys h
  have hSame : l.buffer = last.buffer := by rcases hLast with rfl | rfl <;> rfl
  have hNone : 8 ∉ processed maxLen [] keys := fun hMem => hBack (mem_processed hMem)
  have hText := edited_of_no_backspace hNone
  have hEnd : longest = (edited (processed maxLen [] keys)).length := by
    refine Nat.le_antisymm ?_ (length_edited_le hLongest)
    obtain ⟨front, hFront, hLength⟩ := hLongest.1
    have hFrontNone : 8 ∉ front := fun hMem => hNone (hFront.subset hMem)
    rw [hText, ← hLength, edited_of_no_backspace hFrontNone]
    exact hFront.length_le
  have hLine := (hHolds.textOf_iff (length_edited_le hLongest) hMax
    fun c hMem => hKeys c (mem_processed hMem)).mpr hEnd
  rw [hText, processed_of_no_backspace (Nat.zero_le _) hBack] at hLine
  exact hSame ▸ hLine

variable {ι : Type u} [DecidableEq ι] {current : ι} {s : InputSystem ι}
  {es : List (InputEvent ι)} {heap : ι → NodeHeap InputKeyType} {lock : ι → Nat}

/-- Whatever comes between, a process reads the line that was typed while it was the current one,
unless a key of it was missed. -/
theorem line_of_run (hRun : Run Served (.start current heap lock) es s) (i : ι)
    (hTyped : typedTo i current es = some text)
    (hBetween : (s.processes i).reading = .outside ∨ (s.processes i).reading = .waiting)
    (hMissed : ∀ k ∈ (s.processes i).received, k.2 = false) (hNul : 0 ∉ text) (hBack : 8 ∉ text)
    (hZero : ∀ i ≤ maxLen, buffer i = 0)
    (hLine : getString maxLen ((s.processes i).returned.map InputKeyType.char) (.start buffer) =
      some l) : TextOf l.buffer ((text.takeWhile (· ≠ 10)).take maxLen) := by
  obtain ⟨q, ps, rest, -, -, hReceived, hKept⟩ := held_of_run hRun i hTyped hBetween
  have hAll : ((s.processes i).returned ++ rest).map InputKeyType.char = text := by
    rw [hKept, kept_eq_iff.mpr hMissed, List.map_map, ← hReceived]
    rfl
  apply textOf_of_no_backspace hZero hNul hBack
  rw [← hAll, List.map_append]
  exact getString_append hLine

end Lines

/-- `A` and Enter, with a key of another process between them. -/
def typedLine : List (InputEvent Bool) :=
  [.selfProcessInit, .tick true, .selfProcessInit, .tick false, .scancode 0x1e, .scancode 0x9e] ++
    List.replicate 5 .getChar ++ [.tick true, .scancode 0x10, .tick false, .scancode 0x1c] ++
    List.replicate 9 .getChar

theorem line_typedLine : ∃ (s : InputSystem Bool) (l : Line),
    Run Served (.start false (fun _ => ⟨fun _ => ⟨⟨0, false⟩, 0⟩, []⟩) fun _ => 0) typedLine s ∧
    getString 99 ((s.processes false).returned.map InputKeyType.char) (.start fun _ => 0) = some l ∧
    TextOf l.buffer (([65, 10].takeWhile (· ≠ 10)).take 99) := by
  have hEnd : (typedLine.foldlM (inputCall 0) (.start false
      (fun _ => ⟨fun _ => ⟨⟨0, false⟩, 0⟩, []⟩) fun _ => 0)).map (fun s =>
        ((s.processes false).reading, (s.processes false).received, (s.processes false).returned)) =
      some (.outside, [(⟨65, false⟩, false), (⟨10, false⟩, false)],
        [⟨65, false⟩, ⟨10, false⟩]) := by
    decide +kernel
  obtain ⟨s, hs, hState⟩ := Option.map_eq_some_iff.mp hEnd
  simp only [Prod.mk.injEq] at hState
  obtain ⟨hReading, hReceived, hReturned⟩ := hState
  have hRun := Run.of_foldlM (fun _ _ _ => served_of_inputCall) hs
  have hMissed : ∀ k ∈ (s.processes false).received, k.2 = false := by
    rw [hReceived]
    simp
  have hLine : ∃ l, getString 99 ((s.processes false).returned.map InputKeyType.char)
      (.start fun _ => 0) = some l := by
    rw [hReturned]
    exact ⟨_, rfl⟩
  obtain ⟨l, hl⟩ := hLine
  exact ⟨s, l, hRun, hl, line_of_run hRun false (by decide +kernel) (.inl hReading) hMissed
    (by decide) (by decide) (fun _ _ => rfl) hl⟩

end Juos.Terminal
