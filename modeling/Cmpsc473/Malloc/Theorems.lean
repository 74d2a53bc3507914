import Cmpsc473.Malloc.Client
/-!
# Theorems about the allocator

Every theorem is about any run of any client from an empty heap, and about
every request that the client can make next.
-/

namespace Cmpsc473.Malloc

open Memory Runs

variable {addr : Nat} {mem : Nat → UInt8} {c : Client}

/-! ## Safety -/

/-- All that `mem_sbrk` is asked for is left. -/
def Fits (c : Client) : Op → Prop
  | .request r => r.sbrks.sum ≤ c.heap.rest
  | _ => True

/-- The request does not fault. What it returns, if not `NULL`, is an aligned
block of the heap that overlaps no block that is still live, and no byte of a
live block changes. -/
def SafeRequest (c : Client) (r : Request) : Prop :=
  ∃ p h', c.heap.request r = some (p, h') ∧
    (p ≠ null → 16 ∣ p ∧ memHeapLo h' ≤ p ∧ p + r.bytes ≤ memHeapHi h' + 1 ∧
      (∀ b ∈ r.kept c.live p, Apart (p, r.bytes) b) ∧ (p, r.bytes) ∈ r.ledger c.live p h') ∧
    ∀ b ∈ c.live, ∀ a, b.1 ≤ a → a < b.1 + b.2 → h'.mem a = c.heap.mem a

/-- The live blocks are apart, and nothing that can be done next harms them. -/
structure Safe (c : Client) : Prop where
  apart : c.live.Pairwise Apart
  request : ∀ r, r.legal c.live → Fits c (.request r) → SafeRequest c r
  free : ∀ p, (free c.heap p).mem = c.heap.mem

theorem mem_of_kept {r : Request} {live : List (Nat × Nat)} {p : Nat} {b : Nat × Nat} (hb : b ∈ r.kept live p) :
    b ∈ live := by
  cases r with
  | malloc | calloc => exact hb
  | realloc oldptr size =>
    simp only [Request.kept] at hb
    split at hb
    · exact List.mem_of_mem_filter hb
    · exact hb

theorem safe_request (hs : Sound c) {r : Request} (hl : r.legal c.live) (hf : Fits c (.request r)) : SafeRequest c r := by
  rcases request_outcome hs.ok (hs.fed hl) with ⟨-, hq⟩ | ⟨hq, -, p, h', hres, hp, hg, -⟩ | ⟨-, hfull, -⟩
  · exact ⟨_, _, hq, fun hn => absurd rfl hn, fun _ _ _ _ _ => rfl⟩
  · obtain ⟨hlo, hhi⟩ := hg.within hs.ok
    refine ⟨p, h', hres, fun _ => ⟨hg.aligned, hlo, hhi, fun b hb => ?_, ?_⟩, fun b hb a _ ha => ?_⟩
    · exact hs.ledger.above hg.fresh (mem_of_kept hb)
    · rw [Request.ledger, if_pos ⟨hp, hg.room⟩]
      exact List.mem_cons_self
    · have hw := (hs.ledger.within b hb).2.2
      have hfresh := hg.fresh
      exact hg.outside a (.inl (by omega))
  · exact absurd hf (Nat.not_le.2 hfull)

instance (c : Client) : (op : Op) → Decidable (Fits c op)
  | .request r => inferInstanceAs (Decidable (r.sbrks.sum ≤ c.heap.rest))
  | .free _ | .write _ _ => inferInstanceAs (Decidable True)

/-- A run with all three paths of `realloc`. -/
def someRequests : List Op :=
  [.request (.malloc 20), .request (.calloc 3 5), .write 65541 7, .request (.realloc 65536 100), .request (.realloc 0 8),
    .free 65568, .request (.realloc 65584 0), .request (.malloc 0)]

/-- `NULL` with nothing changed, or a block of the heap that holds what was
asked for, zeroed by `calloc`; and `NULL` if what is left is too little. -/
def FailsCleanly (c : Client) (r : Request) : Prop :=
  ∃ p h', c.heap.request r = some (p, h') ∧
    ((p = null ∧ h'.memBrk = c.heap.memBrk ∧
        ∀ b ∈ c.live, ∀ a, b.1 ≤ a → a < b.1 + b.2 → h'.mem a = c.heap.mem a) ∨
      (p ≠ null ∧ memHeapLo h' ≤ p ∧ p + r.bytes ≤ memHeapHi h' + 1 ∧ r.zeroed p h')) ∧
    (c.heap.rest < alignUp r.bytes → p = null)

/-- The request asks `malloc` for nothing, or for no more than is left. -/
def Met (h : Heap) (r : Request) : Prop := r.quiet ∨ r.sbrks.sum ≤ h.rest

/-- In every reachable heap, exactly the requests that are met fail cleanly. -/
theorem fails_cleanly_iff (ha : Region addr) (h : Reach step Any (start addr mem) c) {r : Request} (hl : r.legal c.live) :
    FailsCleanly c r ↔ Met c.heap r := by
  have hs := sound_reach ha h
  rcases request_outcome hs.ok (hs.fed hl) with ⟨hq, hres⟩ | ⟨hq, hfit, p, h', hres, hp, hg, hz⟩ | ⟨hq, hfull, hb⟩
  · exact ⟨fun _ => .inl hq, fun _ => ⟨_, _, hres, .inl ⟨rfl, rfl, fun _ _ _ _ _ => rfl⟩, fun _ => rfl⟩⟩
  · obtain ⟨hlo, hhi⟩ := hg.within hs.ok
    refine ⟨fun _ => .inr hfit, fun _ => ⟨p, h', hres, .inr ⟨hp, hlo, hhi, hz⟩, fun hless => ?_⟩⟩
    have := alignUp_le_sbrks (quiet_bytes hq)
    omega
  · constructor
    · rintro ⟨p, h', hres, hends, -⟩
      obtain ⟨hp, hn, hok, -, -⟩ := hb p h' hres
      rcases hends with ⟨hnull, -⟩ | ⟨-, -, hroom, -⟩
      · exact absurd hnull hp
      · have hle := hok.brk_le
        rw [hok.memHeapHi_succ] at hroom
        omega
    · rintro (h' | h')
      · exact absurd h' hq
      · omega

/-- `fails_cleanly_iff` after the run of requests. -/
theorem fails_cleanly_run : ∃ c, exec step (start 65536 fun _ => 0) someRequests = some c ∧
    (FailsCleanly c (.realloc 65712 16) ↔ Met c.heap (.realloc 65712 16)) := by
  have hrun : (exec step (start 65536 fun _ => 0) someRequests).any (·.live = [(65712, 8)]) = true := by
    decide +kernel
  obtain ⟨c, hc, hlive⟩ := (Option.any_eq_true _ _).1 hrun
  have hlegal : (Request.realloc 65712 16).legal c.live := by
    rw [of_decide_eq_true hlive]
    decide
  exact ⟨c, hc, fails_cleanly_iff ⟨by decide, by decide, by decide⟩ (exec_reach hc fun _ _ _ => trivial) hlegal⟩

/-- `malloc` of one byte more than the region holds returns `(void *) -1`. -/
theorem fails_cleanly_fails_large :
    (start 65536 fun _ => 0).heap.request (.malloc 1099511627777) = some (minusOne, memInit 65536 fun _ => 0) ∧
      ¬FailsCleanly (start 65536 fun _ => 0) (.malloc 1099511627777) := by
  have hres : (start 65536 fun _ => 0).heap.request (.malloc 1099511627777) =
      some (minusOne, memInit 65536 fun _ => 0) := by
    rfl
  refine ⟨hres, fun ⟨p, h', hp, hends, _⟩ => ?_⟩
  cases hres.symm.trans hp
  rcases hends with ⟨hnull, -⟩ | ⟨-, -, hroom, -⟩
  · exact absurd hnull (by decide)
  · exact absurd hroom (by decide)

end Cmpsc473.Malloc
