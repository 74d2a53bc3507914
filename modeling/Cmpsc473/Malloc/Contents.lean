import Cmpsc473.Malloc.Theorems
/-!
# What `realloc` copies

`mem_memcpy` copies forwards, a word at a time. A byte of the source reaches the
destination unless a word before it was written over it (`memMemcpy_copies`).
`realloc` copies as many bytes as the new block has, past the end of the old one
and perhaps into the new one; the bytes of the old block lie below the new one
and are copied (`realloc_preserves`).
-/

namespace Cmpsc473.Malloc

open Memory Runs

variable {h h' : Heap} {dst src n k : Nat} {addr : Nat} {mem : Nat → UInt8} {c : Client}

/-! ## Forward copies -/

/-- The low bytes of the word that was read. -/
theorem leBytes_memRead {a len data : Nat} (hlen : len ≤ 8) (hr : memRead h a len = some data) :
    leBytes len data = fetch h.mem a len := by
  have hlow : leBytes len (ofLe (fetch h.mem a 8)) = fetch h.mem a len := by
    rw [leBytes_ofLe (hlen.trans_eq (length_fetch _ _ _).symm), take_fetch hlen]
  obtain ⟨-, hr⟩ := Option.ite_none_right_eq_some.1 hr
  rw [← hlow, ← Option.some.inj hr]
  split
  -- the mask keeps the low bytes
  · rw [and_lowMask, leBytes_mod]
  · rfl

/-- A word read and written: its bytes are copied, and nothing else changes. -/
theorem memWrite_copies {data len : Nat} (hlen : len ≤ 8) (hr : memRead h src len = some data)
    (hw : memWrite h dst data len = some h') {i : Nat} (hi : i < len) : h'.mem (dst + i) = h.mem (src + i) := by
  obtain ⟨-, hw⟩ := Option.ite_none_right_eq_some.1 hw
  have hmem : h'.mem = store h.mem dst (leBytes len data) := congrArg Heap.mem (Option.some.inj hw).symm
  rw [hmem, leBytes_memRead hlen hr, store_inside (by rwa [length_fetch]), getD_fetch hi]

/-- A byte of the source is copied unless a word before it is written over it. -/
theorem memcpyWords_copies : ∀ {h : Heap} {dst src i : Nat}, memcpyWords h dst src k = some h' → i < 8 * k →
    src + i < dst ∨ dst + 8 * (i / 8) ≤ src + i → h'.mem (dst + i) = h.mem (src + i) := by
  induction k with
  | zero =>
    intro h dst src i _ hi
    exact absurd hi (Nat.not_lt_zero i)
  | succ k ih =>
    intro h dst src i hw hi hsrc
    simp only [memcpyWords, Option.bind_eq_bind, Option.bind_eq_some_iff] at hw
    obtain ⟨data, hr, h1, hw1, hw2⟩ := hw
    by_cases hfirst : i < 8
    -- the rounds that follow write above the first word
    · rw [(memcpyWords_writes hw2).outside (dst + i) (.inl (by omega))]
      exact memWrite_copies le_rfl hr hw1 hfirst
    · obtain ⟨j, rfl⟩ := Nat.exists_eq_add_of_le (Nat.le_of_not_lt hfirst)
      have hrest := @ih h1 (dst + 8) (src + 8) j hw2 (by omega) (by omega)
      rw [Nat.add_assoc, Nat.add_assoc] at hrest
      rw [hrest, (memWrite_writes hw1).outside (src + (8 + j)) (by omega)]

/-- The same for `mem_memcpy`, with the shorter word at the end. -/
theorem memMemcpy_copies {p : Nat} (hw : memMemcpy h dst src n = some (p, h')) {i : Nat} (hi : i < n)
    (hsrc : src + i < dst ∨ dst + 8 * (i / 8) ≤ src + i) : h'.mem (dst + i) = h.mem (src + i) := by
  simp only [memMemcpy, Option.bind_eq_bind, Option.bind_eq_some_iff] at hw
  obtain ⟨h1, hw1, hw2⟩ := hw
  split at hw2
  · simp only [Option.bind_eq_some_iff, Option.pure_def, Option.some.injEq, Prod.mk.injEq] at hw2
    obtain ⟨data, hr, h2, hw3, -, rfl⟩ := hw2
    by_cases hwords : i < 8 * (n / 8)
    · rw [(memWrite_writes hw3).outside (dst + i) (.inl (by omega))]
      exact memcpyWords_copies hw1 hwords hsrc
    · obtain ⟨j, rfl⟩ := Nat.exists_eq_add_of_le (Nat.le_of_not_lt hwords)
      have hlast := memWrite_copies (by omega) hr hw3 (i := j) (by omega)
      rw [Nat.add_assoc, Nat.add_assoc] at hlast
      rw [hlast, (memcpyWords_writes hw1).outside (src + (8 * (n / 8) + j)) (by omega)]
  · simp only [Option.pure_def, Option.some.injEq, Prod.mk.injEq] at hw2
    obtain ⟨-, rfl⟩ := hw2
    exact memcpyWords_copies hw1 (by omega) hsrc

/-! ## `realloc` -/

/-- `malloc` returns a block of the heap. -/
def Allocates (h : Heap) (size : UInt64) : Prop :=
  (malloc h size).1 ≠ null ∧ (malloc h size).1 + size.toNat ≤ (malloc h size).2.memBrk

instance (h : Heap) (size : UInt64) : Decidable (Allocates h size) := inferInstanceAs (Decidable (_ ∧ _))

/-- `realloc` returns a block with the bytes of the old one, as many as both
have, and changes no byte of a live block. -/
structure Preserves (c : Client) (p m : Nat) (size : UInt64) (q : Nat) (h' : Heap) : Prop where
  block : SafeRequest c (.realloc p size)
  result : c.heap.request (.realloc p size) = some (q, h')
  notNull : q ≠ null
  bytes : ∀ i < min m size.toNat, h'.mem (q + i) = c.heap.mem (p + i)
  others : ∀ b ∈ c.live, ∀ a, b.1 ≤ a → a < b.1 + b.2 → h'.mem a = c.heap.mem a

theorem Allocates.fits (hok : h.Ok) {size : UInt64} (h0 : 0 < size.toNat) (ha : Allocates h size) :
    alignUp size.toNat ≤ h.rest := by
  rcases malloc_cases hok size with ⟨hz, -⟩ | ⟨-, hfit, -⟩ | ⟨-, -, p, hm, -, hn⟩
  · omega
  · exact hfit
  · have hle := hok.brk_le
    have hroom : p + size.toNat ≤ h.memBrk := by
      have := ha.2
      rwa [hm] at this
    omega

/-- The bytes of the old block are copied to the old break. -/
theorem realloc_copies {old q : Nat} {g : Heap} {size : UInt64} (hok : h.Ok) (hnull : old ≠ null) (h0 : 0 < size.toNat)
    (hfit : alignUp size.toNat ≤ h.rest) (hr : realloc h old size = some (q, g)) :
    q = h.memBrk ∧ ∀ i < size.toNat, old + i < h.memBrk → g.mem (q + i) = h.mem (old + i) := by
  have hm : malloc h size = (h.memBrk, h.grow (alignUp size.toNat)) := by
    rcases malloc_cases hok size with ⟨hz, -⟩ | ⟨-, -, hm⟩ | ⟨-, hfull, -⟩
    · omega
    · exact hm
    · omega
  have hres := realloc_block h0 hnull hm hok.brk_ne
  obtain ⟨⟨q', g'⟩, hcpy, heq⟩ := Option.map_eq_some_iff.1 (hres.symm.trans hr)
  cases heq
  exact ⟨rfl, fun i hi hlow => memMemcpy_copies hcpy hi (.inl hlow)⟩

/-- `realloc` preserves contents, in every reachable heap. -/
theorem realloc_preserves (ha : Region addr) (h : Reach step Any (start addr mem) c) {p m : Nat} (hb : (p, m) ∈ c.live)
    {size : UInt64} (h0 : 0 < size.toNat) (hs : Allocates c.heap size) : ∃ q h', Preserves c p m size q h' := by
  have hc := sound_reach ha h
  have hfit := hs.fits hc.ok h0
  obtain ⟨-, hlo, hhi⟩ := hc.ledger.within _ hb
  have hnull : p ≠ null := by
    have hpos := hc.ok.pos
    unfold null
    simp only at hlo
    omega
  have hlegal : (Request.realloc p size).legal c.live := .inr (List.mem_map.2 ⟨_, hb, rfl⟩)
  have hfits : Fits c (.request (.realloc p size)) := (sum_sbrks_block h0 hnull).trans_le hfit
  have hsafe := safe_request hc hlegal hfits
  obtain ⟨q, h', hres, -, hothers⟩ := id hsafe
  obtain ⟨rfl, hcopies⟩ := realloc_copies hc.ok hnull h0 hfit hres
  refine ⟨_, h', hsafe, hres, hc.ok.brk_ne, fun i hi => hcopies i (hi.trans_le (Nat.min_le_right _ _)) ?_, hothers⟩
  simp only at hhi
  omega

/-- `realloc_preserves` for a block that grows, where the copy runs into the new
block. -/
theorem realloc_preserves_grow : ∃ c q h',
    exec step (start 65536 fun _ => 0) [.request (.malloc 20), .write 65541 7] = some c ∧
      Preserves c 65536 20 100 q h' := by
  have hrun : (exec step (start 65536 fun _ => 0) [.request (.malloc 20), .write 65541 7]).any
      (fun c => c.live = [(65536, 20)] ∧ Allocates c.heap 100) = true := by
    decide +kernel
  obtain ⟨c, hc, h⟩ := (Option.any_eq_true _ _).1 hrun
  obtain ⟨hlive, hallocates⟩ := of_decide_eq_true h
  have hmem : (65536, 20) ∈ c.live := by
    rw [hlive]
    exact List.mem_cons_self
  obtain ⟨q, h', hp⟩ := realloc_preserves ⟨by decide, by decide, by decide⟩ (exec_reach hc fun _ _ _ => trivial) hmem
    (by decide) hallocates
  exact ⟨c, q, h', hc, hp⟩

end Cmpsc473.Malloc
