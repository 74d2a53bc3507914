import Cmpsc473.Lib.Condvar
import Cmpsc473.Channel.Queue
/-!
# The channel under threads (`helper.c`)

A step of the system is one of: a thread enters a call; it makes the unlocked
test of `isopen`; it holds `chmutex` from the lock, or from the return of
`pthread_cond_wait`, to the next unlock or wait; it signals after the unlock
(the `"splmsg"` path); it wakes up without a signal. The label of a step names
the thread and, where the step signals, the sleeper that is woken.

`log` records what each call returns, in the order of the critical sections
that decide it.
-/

namespace Cmpsc473.Channel

open BufferStatus Function

variable {ι : Type} [Fintype ι] [DecidableEq ι]

/-- A call a thread may make. `receive` is given the memory at `*data`. -/
inductive Call where
  | send (data : CStr)
  | receive (data : List UInt8)
  | close

/-- Where a thread is. -/
inductive Local where
  /-- Outside the buffer functions, with what the last call returned and left at `*data`. -/
  | idle (ret : Option (BufferStatus × List UInt8))
  | sendStart (data : CStr)
  | sendLock (data : CStr)
  | sendAsleep (data : CStr)
  | sendWoken (data : CStr)
  | receiveStart (data : List UInt8)
  | receiveLock (data : List UInt8)
  | receiveAsleep (data : List UInt8)
  | receiveWoken (data : List UInt8)
  /-- `"splmsg"` received, `chmutex` released, `chconsend` not signalled yet. -/
  | receiveSignal (data : List UInt8)
  | closeLock
  deriving DecidableEq

/-- What a call returned. For a send and a receive that got as far as the ring,
also the status that `buffer_add_Q` or `buffer_remove_Q` returned to it. -/
inductive Event (ι : Type) where
  | send (t : ι) (data : CStr) (ret : BufferStatus) (addQ : Option BufferStatus)
  | receive (t : ι) (data : List UInt8) (ret : BufferStatus) (removeQ : Option BufferStatus)
  | close (t : ι) (ret : BufferStatus)
  deriving DecidableEq

/-- `state_t`, the threads, and the log. -/
structure Chan (ι : Type) where
  isopen : Bool
  fifoQ : Fifo
  threads : ι → Local
  log : List (Event ι)

/-- `buffer_create`. -/
def bufferCreate (capacity : Int) : Chan ι :=
  { isopen := true, fifoQ := fifoInit capacity, threads := fun _ => .idle none, log := [] }

/-! ## The condition variables -/

/-- `chconsend`. A receiver in `receiveSignal` still owes it a signal. -/
def chconsend : Condvar Local where
  asleep l := match l with | .sendAsleep _ => true | _ => false
  pending l := match l with | .sendWoken _ | .receiveSignal _ => true | _ => false
  wake l := match l with | .sendAsleep d => .sendWoken d | l => l
  wake_pending l h := by cases l <;> simp_all
  wake_awake l h := by cases l <;> simp_all
  asleep_idle l h := by cases l <;> simp_all

/-- `chconrec`. -/
def chconrec : Condvar Local where
  asleep l := match l with | .receiveAsleep _ => true | _ => false
  pending l := match l with | .receiveWoken _ => true | _ => false
  wake l := match l with | .receiveAsleep d => .receiveWoken d | l => l
  wake_pending l h := by cases l <;> simp_all
  wake_awake l h := by cases l <;> simp_all
  asleep_idle l h := by cases l <;> simp_all

/-! ## The steps -/

/-- A step: who moves, and whom a signal wakes. -/
inductive Act (ι : Type) where
  | call (t : ι) (c : Call)
  | test (t : ι)
  | lock (t : ι) (w : Option ι)
  | signal (t : ι) (w : Option ι)
  | spurious (t : ι)

def Call.start : Call → Local
  | .send data => .sendStart data
  | .receive data => .receiveStart data
  | .close => .closeLock

/-- Thread `t` moves on to `l`. -/
def Chan.goto (s : Chan ι) (t : ι) (l : Local) : Chan ι := { s with threads := update s.threads t l }

/-- Thread `t` leaves its call with `ret`, the memory at `*data` being `data`. -/
def Chan.leave (s : Chan ι) (t : ι) (ret : BufferStatus) (data : List UInt8) (e : Event ι) : Chan ι :=
  { s with threads := update s.threads t (.idle (some (ret, data))), log := s.log ++ [e] }

/-- The unlocked `if(!buffer->isopen)` of `buffer_send` and `buffer_receive`. -/
def testOpen (s : Chan ι) (t : ι) : Option (Chan ι) :=
  match s.threads t with
  | .sendStart d =>
    some (if !s.isopen then s.leave t closedError d.mem (.send t d closedError none) else s.goto t (.sendLock d))
  | .receiveStart d =>
    some (if !s.isopen then s.leave t closedError d (.receive t d closedError none) else s.goto t (.receiveLock d))
  | _ => none

/-- `buffer_send` while it holds `chmutex`: the test of the `while` loop, and
what follows it. -/
def sendSection (s : Chan ι) (t : ι) (data : CStr) (w : Option ι) : Option (Chan ι) :=
  let msgSize := getMsgSize data
  if fifoAvailSize s.fifoQ ≤ msgSize && s.isopen then
    some (s.goto t (.sendAsleep data))
  else if fifoAvailSize s.fifoQ > msgSize && s.isopen then
    let r := bufferAddQ s.fifoQ data
    let s := { s with fifoQ := r.1 }
    let s := s.leave t bufferSuccess data.mem (.send t data bufferSuccess (some r.2))
    (chconrec.signal s.threads w).map fun f => { s with threads := f }
  else
    some (s.leave t closedError data.mem (.send t data closedError none))

/-- `strcmp(*data,"splmsg") == 0`. -/
def splmsg : CStr := ⟨[115, 112, 108, 109, 115, 103], by decide⟩

/-- `buffer_receive` while it holds `chmutex`. -/
def receiveSection (s : Chan ι) (t : ι) (data : List UInt8) (w : Option ι) : Option (Chan ι) :=
  if s.fifoQ.avilSize ≥ s.fifoQ.size && s.isopen then
    some (s.goto t (.receiveAsleep data))
  else if s.fifoQ.avilSize < s.fifoQ.size && s.isopen then
    let r := bufferRemoveQ s.fifoQ data
    let data := r.2.1
    if cstr data = splmsg.bytes then
      -- here the unlock comes before the signal
      some { s with
        fifoQ := r.1
        threads := update s.threads t (.receiveSignal data)
        log := s.log ++ [.receive t data bufferSpecialMessage (some r.2.2)] }
    else
      let s := { s with fifoQ := r.1 }
      let s := s.leave t bufferSuccess data (.receive t data bufferSuccess (some r.2.2))
      (chconsend.signal s.threads w).map fun f => { s with threads := f }
  else
    some (s.leave t closedError data (.receive t data closedError none))

/-- `buffer_close` while it holds `chmutex`. -/
def closeSection (s : Chan ι) (t : ι) : Chan ι :=
  if !s.isopen then
    s.leave t closedError [] (.close t closedError)
  else
    let f := chconsend.broadcast s.threads
    let f := chconrec.broadcast f
    let s := { s with threads := f, isopen := false }
    s.leave t bufferSuccess [] (.close t bufferSuccess)

/-- One step of the system. -/
def step (s : Chan ι) : Act ι → Option (Chan ι)
  | .call t c =>
    match s.threads t with
    | .idle _ => some (s.goto t c.start)
    | _ => none
  | .test t => testOpen s t
  | .lock t w =>
    match s.threads t with
    | .sendLock d | .sendWoken d => sendSection s t d w
    | .receiveLock d | .receiveWoken d => receiveSection s t d w
    | .closeLock => some (closeSection s t)
    | _ => none
  | .signal t w =>
    match s.threads t with
    | .receiveSignal d =>
      let s := s.goto t (.idle (some (bufferSpecialMessage, d)))
      (chconsend.signal s.threads w).map fun f => { s with threads := f }
    | _ => none
  | .spurious t =>
    match s.threads t with
    | .sendAsleep d => some (s.goto t (.sendWoken d))
    | .receiveAsleep d => some (s.goto t (.receiveWoken d))
    | _ => none

/-! ## What a step can do -/

/-- The states in which a thread is about to hold `chmutex` in `buffer_send`. -/
def Local.Sends (l : Local) (data : CStr) : Prop := l = .sendLock data ∨ l = .sendWoken data

/-- The states in which a thread is about to hold `chmutex` in `buffer_receive`. -/
def Local.Receives (l : Local) (data : List UInt8) : Prop := l = .receiveLock data ∨ l = .receiveWoken data

/-- The steps, one constructor for each path through the code. -/
inductive Effect (s : Chan ι) : Act ι → Chan ι → Prop where
  | call {t c r} : s.threads t = .idle r → Effect s (.call t c) (s.goto t c.start)
  | sendPass {t d} : s.threads t = .sendStart d → s.isopen = true → Effect s (.test t) (s.goto t (.sendLock d))
  | sendEarly {t d} : s.threads t = .sendStart d → s.isopen = false →
      Effect s (.test t) (s.leave t closedError d.mem (.send t d closedError none))
  | receivePass {t d} : s.threads t = .receiveStart d → s.isopen = true →
      Effect s (.test t) (s.goto t (.receiveLock d))
  | receiveEarly {t d} : s.threads t = .receiveStart d → s.isopen = false →
      Effect s (.test t) (s.leave t closedError d (.receive t d closedError none))
  | sendSleep {t w d} : (s.threads t).Sends d → s.isopen = true → fifoAvailSize s.fifoQ ≤ getMsgSize d →
      Effect s (.lock t w) (s.goto t (.sendAsleep d))
  | sendCommit {t w d f} : (s.threads t).Sends d → s.isopen = true → getMsgSize d < fifoAvailSize s.fifoQ →
      chconrec.signal (update s.threads t (.idle (some (bufferSuccess, d.mem)))) w = some f →
      Effect s (.lock t w) { s with
        fifoQ := (bufferAddQ s.fifoQ d).1
        threads := f
        log := s.log ++ [.send t d bufferSuccess (some (bufferAddQ s.fifoQ d).2)] }
  | sendClosed {t w d} : (s.threads t).Sends d → s.isopen = false →
      Effect s (.lock t w) (s.leave t closedError d.mem (.send t d closedError none))
  | receiveSleep {t w d} : (s.threads t).Receives d → s.isopen = true → s.fifoQ.size ≤ s.fifoQ.avilSize →
      Effect s (.lock t w) (s.goto t (.receiveAsleep d))
  | receiveCommit {t w d f} : (s.threads t).Receives d → s.isopen = true → s.fifoQ.avilSize < s.fifoQ.size →
      cstr (bufferRemoveQ s.fifoQ d).2.1 ≠ splmsg.bytes →
      chconsend.signal (update s.threads t (.idle (some (bufferSuccess, (bufferRemoveQ s.fifoQ d).2.1)))) w = some f →
      Effect s (.lock t w) { s with
        fifoQ := (bufferRemoveQ s.fifoQ d).1
        threads := f
        log := s.log ++ [.receive t (bufferRemoveQ s.fifoQ d).2.1 bufferSuccess (some (bufferRemoveQ s.fifoQ d).2.2)] }
  | receiveSpecial {t w d} : (s.threads t).Receives d → s.isopen = true → s.fifoQ.avilSize < s.fifoQ.size →
      cstr (bufferRemoveQ s.fifoQ d).2.1 = splmsg.bytes →
      Effect s (.lock t w) { s with
        fifoQ := (bufferRemoveQ s.fifoQ d).1
        threads := update s.threads t (.receiveSignal (bufferRemoveQ s.fifoQ d).2.1)
        log := s.log ++
          [.receive t (bufferRemoveQ s.fifoQ d).2.1 bufferSpecialMessage (some (bufferRemoveQ s.fifoQ d).2.2)] }
  | receiveClosed {t w d} : (s.threads t).Receives d → s.isopen = false →
      Effect s (.lock t w) (s.leave t closedError d (.receive t d closedError none))
  | closeFirst {t w} : s.threads t = .closeLock → s.isopen = true →
      Effect s (.lock t w) { s with
        isopen := false
        threads := update (chconrec.broadcast (chconsend.broadcast s.threads)) t (.idle (some (bufferSuccess, [])))
        log := s.log ++ [.close t bufferSuccess] }
  | closeAgain {t w} : s.threads t = .closeLock → s.isopen = false →
      Effect s (.lock t w) (s.leave t closedError [] (.close t closedError))
  | signal {t w d f} : s.threads t = .receiveSignal d →
      chconsend.signal (update s.threads t (.idle (some (bufferSpecialMessage, d)))) w = some f →
      Effect s (.signal t w) { s with threads := f }
  | spuriousSend {t d} : s.threads t = .sendAsleep d → Effect s (.spurious t) (s.goto t (.sendWoken d))
  | spuriousReceive {t d} : s.threads t = .receiveAsleep d → Effect s (.spurious t) (s.goto t (.receiveWoken d))

theorem sendSection_effect {s s' : Chan ι} {t : ι} {d : CStr} {w : Option ι} (hd : (s.threads t).Sends d)
    (h : sendSection s t d w = some s') : Effect s (.lock t w) s' := by
  simp only [sendSection, Bool.and_eq_true, decide_eq_true_eq, gt_iff_lt] at h
  split at h
  · cases h
    rename_i hc
    exact .sendSleep hd hc.2 hc.1
  · rename_i hwait
    split at h
    · rename_i hc
      obtain ⟨f, hf, rfl⟩ := Option.map_eq_some_iff.1 h
      exact .sendCommit hd hc.2 hc.1 hf
    · rename_i hroom
      cases h
      -- neither full nor roomy while open: so not open
      refine .sendClosed hd (Bool.eq_false_iff.2 fun ho => ?_)
      by_cases hle : fifoAvailSize s.fifoQ ≤ getMsgSize d
      · exact hwait ⟨hle, ho⟩
      · exact hroom ⟨by omega, ho⟩

theorem receiveSection_effect {s s' : Chan ι} {t : ι} {d : List UInt8} {w : Option ι} (hd : (s.threads t).Receives d)
    (h : receiveSection s t d w = some s') : Effect s (.lock t w) s' := by
  simp only [receiveSection, Bool.and_eq_true, decide_eq_true_eq, ge_iff_le] at h
  split at h
  · cases h
    rename_i hc
    exact .receiveSleep hd hc.2 hc.1
  · rename_i hwait
    split at h
    · rename_i hc
      split at h
      · cases h
        exact .receiveSpecial hd hc.2 hc.1 ‹_›
      · obtain ⟨f, hf, rfl⟩ := Option.map_eq_some_iff.1 h
        exact .receiveCommit hd hc.2 hc.1 ‹_› hf
    · rename_i hsome
      cases h
      refine .receiveClosed hd (Bool.eq_false_iff.2 fun ho => ?_)
      by_cases hle : s.fifoQ.size ≤ s.fifoQ.avilSize
      · exact hwait ⟨hle, ho⟩
      · exact hsome ⟨by omega, ho⟩

theorem closeSection_effect {s : Chan ι} {t : ι} {w : Option ι} (h : s.threads t = .closeLock) :
    Effect s (.lock t w) (closeSection s t) := by
  unfold closeSection
  split
  · rename_i ho
    exact .closeAgain h (by simpa using ho)
  · rename_i ho
    exact .closeFirst h (by simpa using ho)

/-- Every step is one of the effects. -/
theorem step_effect {s s' : Chan ι} {a : Act ι} (h : step s a = some s') : Effect s a s' := by
  cases a with
  | call t c =>
    simp only [step] at h
    split at h <;> cases h
    exact .call ‹_›
  | test t =>
    simp only [step, testOpen] at h
    cases ho : s.isopen <;> rw [ho] at h <;> split at h <;> cases h
    · exact .sendEarly ‹_› ho
    · exact .receiveEarly ‹_› ho
    · exact .sendPass ‹_› ho
    · exact .receivePass ‹_› ho
  | lock t w =>
    simp only [step] at h
    split at h <;> rename_i hl
    · exact sendSection_effect (.inl hl) h
    · exact sendSection_effect (.inr hl) h
    · exact receiveSection_effect (.inl hl) h
    · exact receiveSection_effect (.inr hl) h
    · cases h
      exact closeSection_effect hl
    · cases h
  | signal t w =>
    simp only [step] at h
    split at h
    · obtain ⟨f, hf, rfl⟩ := Option.map_eq_some_iff.1 h
      exact .signal ‹_› hf
    · cases h
  | spurious t =>
    simp only [step] at h
    split at h <;> cases h
    · exact .spuriousSend ‹_›
    · exact .spuriousReceive ‹_›

theorem effect_sendSection {s s' : Chan ι} {t : ι} {w : Option ι} {d : CStr} (hd : (s.threads t).Sends d)
    (h : sendSection s t d w = some s') : step s (.lock t w) = some s' := by
  rcases hd with hl | hl <;> simp only [step, hl, h]

theorem effect_receiveSection {s s' : Chan ι} {t : ι} {w : Option ι} {d : List UInt8} (hd : (s.threads t).Receives d)
    (h : receiveSection s t d w = some s') : step s (.lock t w) = some s' := by
  rcases hd with hl | hl <;> simp only [step, hl, h]

/-- Every effect is a step. -/
theorem effect_step {s s' : Chan ι} {a : Act ι} (h : Effect s a s') : step s a = some s' := by
  cases h with
  | call ht | spuriousSend ht | spuriousReceive ht => simp only [step, ht]
  | sendPass ht ho | sendEarly ht ho | receivePass ht ho | receiveEarly ht ho => simp [step, testOpen, ht, ho]
  | sendSleep hd ho hfull => exact effect_sendSection hd (by simp [sendSection, ho, hfull])
  | sendClosed hd ho => exact effect_sendSection hd (by simp [sendSection, ho])
  | sendCommit hd ho hroom hf =>
    exact effect_sendSection hd (by simp [sendSection, Chan.leave, ho, hroom, Int.not_le.2 hroom, hf])
  | receiveSleep hd ho hempty => exact effect_receiveSection hd (by simp [receiveSection, ho, hempty])
  | receiveClosed hd ho => exact effect_receiveSection hd (by simp [receiveSection, ho])
  | receiveSpecial hd ho hne hm =>
    exact effect_receiveSection hd (by simp [receiveSection, ho, hne, Int.not_le.2 hne, hm])
  | receiveCommit hd ho hne hm hf =>
    exact effect_receiveSection hd (by simp [receiveSection, Chan.leave, ho, hne, Int.not_le.2 hne, hm, hf])
  | closeFirst ht ho | closeAgain ht ho => simp [step, closeSection, Chan.leave, ht, ho]
  | signal ht hf => simp [step, Chan.goto, ht, hf]

end Cmpsc473.Channel
