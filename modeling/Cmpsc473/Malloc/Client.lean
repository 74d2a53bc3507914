import Cmpsc473.Lib.Runs
import Cmpsc473.Malloc.Mm
/-!
# Clients of the allocator

A client holds a ledger of its live blocks: where they are and how many bytes it
asked for. It passes `realloc` and `free` nothing but `NULL` and live blocks,
and stores into live blocks only. `sound_step` is the invariant of all runs,
whatever the requests.
-/

namespace Cmpsc473.Malloc

open Memory Runs

/-- The heap and the blocks of its client. -/
structure Client where
  heap : Heap
  live : List (Nat × Nat)

/-- What a client does. -/
inductive Op where
  | request (r : Request)
  | free (ptr : Nat)
  | write (a : Nat) (b : UInt8)

/-- `NULL` or a live block. -/
def Owned (live : List (Nat × Nat)) (p : Nat) : Prop := p = null ∨ p ∈ live.map Prod.fst

instance (live : List (Nat × Nat)) (p : Nat) : Decidable (Owned live p) := inferInstanceAs (Decidable (_ ∨ _))

/-- What a client may ask for. -/
def Request.legal (live : List (Nat × Nat)) : Request → Prop
  | .realloc oldptr _ => Owned live oldptr
  | _ => True

instance (live : List (Nat × Nat)) : (r : Request) → Decidable (r.legal live)
  | .realloc oldptr _ => inferInstanceAs (Decidable (Owned live oldptr))
  | .malloc _ | .calloc _ _ => inferInstanceAs (Decidable True)

/-- The blocks that a request which returned `p` leaves alone: a `realloc` frees
its block when it is asked for nothing and when it returns another one. -/
def Request.kept (live : List (Nat × Nat)) (p : Nat) : Request → List (Nat × Nat)
  | .realloc oldptr size => if size.toNat = 0 ∨ p ≠ null then live.filter (·.1 ≠ oldptr) else live
  | _ => live

/-- The ledger after a request. A result without room behind it is no block. -/
def Request.ledger (live : List (Nat × Nat)) (p : Nat) (h : Heap) (r : Request) : List (Nat × Nat) :=
  if p ≠ null ∧ p + r.bytes ≤ h.memBrk then (p, r.bytes) :: r.kept live p else r.kept live p

/-- One step of the client. There is none after a fault. -/
def step (c : Client) : Op → Option Client
  | .request r =>
    if r.legal c.live then
      (c.heap.request r).map fun res => { heap := res.2, live := r.ledger c.live res.1 res.2 }
    else none
  | .free p =>
    if Owned c.live p then some { heap := free c.heap p, live := c.live.filter (·.1 ≠ p) } else none
  | .write a b =>
    if ∃ blk ∈ c.live, blk.1 ≤ a ∧ a < blk.1 + blk.2 then
      some { c with heap := { c.heap with mem := store c.heap.mem a [b] } }
    else none

/-- An empty heap in the region at `addr`. -/
def start (addr : Nat) (mem : Nat → UInt8) : Client := { heap := memInit addr mem, live := [] }

/-! ## The invariant -/

/-- The heap is well formed and the live blocks lie in it, apart from each other. -/
structure Sound (c : Client) : Prop where
  ok : c.heap.Ok
  ledger : Ledger 16 c.heap.heap c.heap.memBrk c.live

/-- A region that `mmap` can return: page-aligned, in user space. -/
structure Region (addr : Nat) : Prop where
  page : 4096 ∣ addr
  pos : 0 < addr
  user : addr + maxHeapSize ≤ 140737488355328

theorem sound_start {addr : Nat} (ha : Region addr) (mem : Nat → UInt8) : Sound (start addr mem) :=
  ⟨memInit_ok mem ha.page ha.pos ha.user, ⟨by simp [start], by simp [start], .nil⟩⟩

variable {c c' : Client}

theorem Sound.fed (hs : Sound c) {r : Request} (hl : r.legal c.live) : r.fed c.heap := by
  cases r with
  | malloc | calloc => trivial
  | realloc oldptr size =>
    rcases hl with hl | hl
    · exact .inl hl
    · obtain ⟨b, hb, rfl⟩ := List.mem_map.1 hl
      have hw := hs.ledger.within b hb
      have h0 := hs.ledger.nonempty b hb
      exact .inr ⟨hw.1, hw.2.1, by omega⟩

theorem Ledger.kept {lo hi : Nat} {live : List (Nat × Nat)} (h : Ledger 16 lo hi live) (r : Request) (p : Nat) :
    Ledger 16 lo hi (r.kept live p) := by
  cases r with
  | malloc | calloc => exact h
  | realloc oldptr size =>
    simp only [Request.kept]
    split
    · exact h.filter _
    · exact h

theorem quiet_bytes {r : Request} (hr : ¬r.quiet) : 0 < r.bytes := by
  refine Nat.pos_of_ne_zero fun h0 => hr ?_
  cases r with
  | malloc size | realloc oldptr size => exact h0
  | calloc nmemb size =>
    show _ ∣ (Request.calloc nmemb size).bytes
    rw [h0]
    exact dvd_zero _

theorem alignUp_le_sbrks {r : Request} (hr : 0 < r.bytes) : alignUp r.bytes ≤ r.sbrks.sum := by
  unfold Request.sbrks
  rw [if_neg (Nat.pos_iff_ne_zero.1 hr)]
  cases r with
  | malloc | calloc => simp
  | realloc oldptr size => by_cases h : oldptr = null <;> simp [h]

/-- Every step keeps the client sound. -/
theorem sound_step {op : Op} (hs : Sound c) (h : step c op = some c') : Sound c' := by
  cases op with
  | request r =>
    simp only [step, Option.ite_none_right_eq_some, Option.map_eq_some_iff] at h
    obtain ⟨hl, ⟨p, h'⟩, hres, rfl⟩ := h
    rcases request_outcome hs.ok (hs.fed hl) with ⟨-, hq⟩ | ⟨hq, -, q, g, hg, hp, hgrant, -⟩ | ⟨-, -, hb⟩
    · cases hq.symm.trans hres
      refine ⟨hs.ok, ?_⟩
      rw [Request.ledger, if_neg (fun hn => hn.1 rfl)]
      exact Ledger.kept hs.ledger r _
    · cases hg.symm.trans hres
      refine ⟨hgrant.ok, ?_⟩
      have hkept := Ledger.kept hs.ledger r p
      rw [Request.ledger, if_pos ⟨hp, hgrant.room⟩, hgrant.heap]
      exact hkept.cons hgrant.aligned (hs.ok.brk_ge.trans hgrant.fresh) hgrant.fresh (quiet_bytes hq) hgrant.room
    · obtain ⟨-, hn, hok, hheap, hbrk⟩ := hb p h' hres
      refine ⟨hok, ?_⟩
      have hroom : ¬p + r.bytes ≤ h'.memBrk := by
        have hle := hok.brk_le
        omega
      rw [Request.ledger, if_neg (fun hn' => hroom hn'.2), hheap]
      exact (Ledger.kept hs.ledger r p).mono hbrk
  | free p =>
    simp only [step, Option.ite_none_right_eq_some, Option.some.injEq] at h
    obtain ⟨-, rfl⟩ := h
    exact ⟨hs.ok, hs.ledger.filter _⟩
  | write a b =>
    simp only [step, Option.ite_none_right_eq_some, Option.some.injEq] at h
    obtain ⟨-, rfl⟩ := h
    obtain ⟨h1, h2, h3, h4, h5, h6, h7⟩ := hs.ok
    exact ⟨⟨h1, h2, h3, h4, h5, h6, h7⟩, hs.ledger⟩

theorem sound_reach {P : Client → Op → Prop} {addr : Nat} {mem : Nat → UInt8} (ha : Region addr)
    (h : Reach step P (start addr mem) c) : Sound c :=
  Reach.inv Sound (fun _ _ _ hs _ hl => sound_step hs hl) h (sound_start ha mem)

end Cmpsc473.Malloc
