import Cmpsc473.Channel.Invariants
/-!
# The channel as its callers see it

A caller cannot tell a thread that waits for the mutex from one that sleeps: to
it a thread is idle, sending, receiving or closing. Every step of an open
channel that nobody closes is one of the five moves of `Move`.
-/

namespace Cmpsc473.Channel

open BufferStatus Function

variable {ι : Type}

/-- What a caller knows of a thread. `signalling`: `"splmsg"` is received, and
`buffer_receive` has not returned yet. -/
inductive Role where
  | idle (ret : Option (BufferStatus × List UInt8))
  | sending (data : CStr)
  | receiving
  | signalling (data : List UInt8)
  | closing

def Local.role : Local → Role
  | .idle ret => .idle ret
  | .sendStart d | .sendLock d | .sendAsleep d | .sendWoken d => .sending d
  | .receiveStart _ | .receiveLock _ | .receiveAsleep _ | .receiveWoken _ => .receiving
  | .receiveSignal d => .signalling d
  | .closeLock => .closing

def Chan.roles (s : Chan ι) (t : ι) : Role := (s.threads t).role

theorem Local.Sends.role {l : Local} {d : CStr} (h : l.Sends d) : l.role = .sending d := by
  rcases h with rfl | rfl <;> rfl

theorem Local.Receives.role {l : Local} {d : List UInt8} (h : l.Receives d) : l.role = .receiving := by
  rcases h with rfl | rfl <;> rfl

theorem wake_role (l : Local) : (chconsend.wake l).role = l.role ∧ (chconrec.wake l).role = l.role := by
  cases l <;> exact ⟨rfl, rfl⟩

variable [Fintype ι] [DecidableEq ι] {s s' : Chan ι} {a : Act ι}

omit [Fintype ι] in
theorem roles_update (f : ι → Local) (t : ι) (l : Local) :
    (fun i => (update f t l i).role) = update (fun i => (f i).role) t l.role := by
  funext i
  by_cases hi : i = t
  · subst hi; rw [update_self, update_self]
  · rw [update_of_ne hi, update_of_ne hi]

omit [Fintype ι] in
@[simp] theorem roles_goto (s : Chan ι) (t : ι) (l : Local) : (s.goto t l).roles = update s.roles t l.role :=
  roles_update _ _ _

/-- The moves of an open channel that its callers can tell apart. -/
inductive Move (s s' : Chan ι) : Prop where
  | stay : s'.roles = s.roles → s'.log = s.log → Move s s'
  | sent {t d q} : s.roles t = .sending d → s'.roles = update s.roles t (.idle (some (bufferSuccess, d.mem))) →
      s'.log = s.log ++ [.send t d bufferSuccess q] → Move s s'
  | received {t data q} : s.roles t = .receiving → cstr data ≠ splmsg.bytes →
      s'.roles = update s.roles t (.idle (some (bufferSuccess, data))) →
      s'.log = s.log ++ [.receive t data bufferSuccess q] → Move s s'
  | special {t data q} : s.roles t = .receiving → cstr data = splmsg.bytes →
      s'.roles = update s.roles t (.signalling data) →
      s'.log = s.log ++ [.receive t data bufferSpecialMessage q] → Move s s'
  | signalled {t data} : s.roles t = .signalling data →
      s'.roles = update s.roles t (.idle (some (bufferSpecialMessage, data))) → s'.log = s.log → Move s s'

omit [Fintype ι] in
/-- A thread that stays within its call keeps its role. -/
theorem Move.goto {t : ι} {l : Local} (h : l.role = (s.threads t).role) : Move s (s.goto t l) := by
  refine .stay ?_ rfl
  rw [roles_goto, h]
  exact update_eq_self t s.roles

theorem roles_signal {v : Condvar Local} (hv : ∀ l, (v.wake l).role = l.role) {t : ι} {l : Local} {f : ι → Local}
    {w : Option ι} (h : v.signal (update s.threads t l) w = some f) :
    (fun i => (f i).role) = update s.roles t l.role := by
  funext i
  rw [v.signal_keeps hv h i]
  exact congrFun (roles_update s.threads t l) i

/-- A step other than a call, in an open channel that no thread is closing, is a
move, and the channel stays open. -/
theorem move_of_effect (ho : s.isopen = true) (hc : ∀ t, s.roles t ≠ .closing) (ha : ∀ t c, a ≠ .call t c)
    (he : Effect s a s') : s'.isopen = true ∧ Move s s' := by
  have noClose : ∀ {p : Prop} {t}, s.threads t = .closeLock → p := fun {p t} h =>
    absurd (congrArg Local.role h) (hc t)
  have notShut : ∀ {p : Prop}, s.isopen = false → p := fun h => absurd (ho.symm.trans h) (by decide)
  cases he with
  | call => exact absurd rfl (ha _ _)
  | sendPass ht | receivePass ht | spuriousSend ht | spuriousReceive ht => exact ⟨ho, .goto (by rw [ht]; rfl)⟩
  | sendSleep hd => exact ⟨ho, .goto hd.role.symm⟩
  | receiveSleep hd => exact ⟨ho, .goto hd.role.symm⟩
  | sendEarly _ hn | receiveEarly _ hn | sendClosed _ hn | receiveClosed _ hn | closeAgain _ hn => exact notShut hn
  | closeFirst ht => exact noClose ht
  | sendCommit hd _ _ hf => exact ⟨ho, .sent hd.role (roles_signal (fun l => (wake_role l).2) hf) rfl⟩
  | receiveCommit hd _ _ hm hf => exact ⟨ho, .received hd.role hm (roles_signal (fun l => (wake_role l).1) hf) rfl⟩
  | receiveSpecial hd _ _ hm => exact ⟨ho, .special hd.role hm (roles_update _ _ _) rfl⟩
  | signal ht hf =>
    exact ⟨ho, .signalled (congrArg Local.role ht) (roles_signal (fun l => (wake_role l).1) hf) rfl⟩

end Cmpsc473.Channel
