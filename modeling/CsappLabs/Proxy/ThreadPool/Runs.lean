import CsappLabs.Proxy.ThreadPool.Invariant

/-!
# Runs of the thread pool

Whatever the interleaving, the queue hands each descriptor to one worker in the
order of insertion, a worker is cancelled only while it waits for an item, and
the number of threads stays a power of two between its bounds.
-/

namespace CsappLabs.Proxy.ThreadPool

open CsappLabs.Foundation

variable {s s' : Pool} {b : Sbuf} {w w' : Worker} {i : Nat} {pc : AdjusterPc}

def Pool.count (s : Pool) (p : WorkerPc → Bool) : Nat := s.workers.countP fun w => p w.pc

/-- What the loops of `adjust_thread` know about the new number of threads. -/
def Adjusting : AdjusterPc → Prop
  | .spawn _ n => Sized n
  | .cancel _ n => Sized n
  | _ => True

structure Inv (s : Pool) : Prop where
  balance : Balance s.sbuf
    (s.main.holdsMutex.toNat + s.adjuster.holdsMutex.toNat + s.count WorkerPc.holdsMutex)
    s.main.reserved.toNat s.main.stored.toNat (s.count WorkerPc.claimed) (s.count WorkerPc.taken)
  shielded : ∀ w ∈ s.workers, w.pc.shielded → w.cancelEnabled = false
  sized : Sized s.currentNthreads
  adjusting : Adjusting s.adjuster
  unstarted : s.main.starting → s.adjuster = .notStarted
  contents : s.sbuf.inserted.length < 2 ^ 31 → Contents s.sbuf

theorem inv_start : Inv Pool.start where
  balance := ⟨rfl, rfl, rfl⟩
  shielded := nofun
  sized := ⟨0, Nat.zero_le 10, rfl⟩
  adjusting := trivial
  unstarted _ := rfl
  contents _ := contents_init

namespace Inv

/-! ## Workers -/

theorem worker (h : Inv s) (hw : s.workers[i]? = some w)
    (hbalance : ∀ holding reserved stored claimed taken,
      Balance s.sbuf (holding + w.pc.holdsMutex.toNat) reserved stored
        (claimed + w.pc.claimed.toNat) (taken + w.pc.taken.toNat) →
      Balance b (holding + w'.pc.holdsMutex.toNat) reserved stored
        (claimed + w'.pc.claimed.toNat) (taken + w'.pc.taken.toNat))
    (hshielded : w'.pc.shielded → w'.cancelEnabled = false)
    (hcontents : b.inserted.length < 2 ^ 31 → Contents b) :
    Inv { s with sbuf := b, workers := s.workers.set i w' } where
  balance := by
    obtain ⟨holding, hold₁, hold₂⟩ := exists_countP_rest (fun w => w.pc.holdsMutex) hw
    obtain ⟨claimed, hclaimed₁, hclaimed₂⟩ := exists_countP_rest (fun w => w.pc.claimed) hw
    obtain ⟨taken, htaken₁, htaken₂⟩ := exists_countP_rest (fun w => w.pc.taken) hw
    have hold := h.balance
    simp only [Pool.count, hold₁, hclaimed₁, htaken₁, ← Nat.add_assoc] at hold
    simp only [Pool.count, hold₂, hclaimed₂, htaken₂, ← Nat.add_assoc]
    exact hbalance _ _ _ _ _ hold
  shielded u hu := by
    cases List.mem_or_eq_of_mem_set hu with
    | inl hmem => exact h.shielded u hmem
    | inr heq => exact heq ▸ hshielded
  sized := h.sized
  adjusting := h.adjusting
  unstarted := h.unstarted
  contents := hcontents

theorem shielded_of_getElem? (h : Inv s) (hw : s.workers[i]? = some w) :
    w.pc.shielded → w.cancelEnabled = false :=
  h.shielded w (List.mem_of_getElem? hw)

theorem removed_lt_of_take (h : Inv s) (hw : s.workers[i]? = some w) (hpc : w.pc = .take) :
    s.sbuf.removed.length < s.sbuf.inserted.length := by
  have hclaimed : 0 < s.count WorkerPc.claimed :=
    List.countP_pos_iff.mpr ⟨w, List.mem_of_getElem? hw, by rw [hpc]; rfl⟩
  have hitems := h.balance.items
  omega

theorem removed_le (h : Inv s) : s.sbuf.removed.length ≤ s.sbuf.inserted.length := by
  have hitems := h.balance.items
  omega

theorem inserted_worker (hs : workerThread s.sbuf i w = some (b, w')) :
    b.inserted = s.sbuf.inserted := by
  cases hpc : w.pc <;> simp only [workerThread, hpc] at hs
  case gone => cases hs
  case waitItem | waitMutex =>
    obtain ⟨-, heq⟩ := map_P hs
    obtain ⟨rfl, -⟩ := Prod.mk.inj heq
    rfl
  all_goals
    obtain ⟨rfl, -⟩ := Prod.mk.inj (Option.some.inj hs)
    rfl

theorem runWorker (h : Inv s) (hw : s.workers[i]? = some w) (hs : s.runWorker i w = some s') :
    Inv s' := by
  obtain ⟨⟨b, w'⟩, hstep, rfl⟩ := Option.map_eq_some_iff.mp hs
  apply h.worker hw
  · intro holding reserved stored claimed taken hbalance
    exact balance_worker hbalance hstep
  · exact shielded_worker (h.shielded_of_getElem? hw) hstep
  · intro hlt
    rw [inserted_worker hstep] at hlt
    exact contents_worker (h.contents hlt) hstep (h.removed_lt_of_take hw) hlt

theorem actOnCancel (h : Inv s) (hw : s.workers[i]? = some w)
    (hs : s.actOnCancel i w = some s') : Inv s' := by
  unfold Pool.actOnCancel at hs
  split at hs
  · rename_i hc
    obtain rfl := Option.some.inj hs
    have hpc := eq_waitItem_of_cancellable (h.shielded_of_getElem? hw) hc
    apply h.worker hw
    · intro holding reserved stored claimed taken hbalance
      rwa [hpc] at hbalance
    · nofun
    · exact h.contents
  · cases hs

theorem requestCancel (h : Inv s) (i : Nat) : Inv (s.requestCancel i) := by
  unfold Pool.requestCancel
  split
  · exact h
  · rename_i w hw
    have hshielded := h.shielded_of_getElem? hw
    exact h.worker hw (fun _ _ _ _ _ hbalance => hbalance) hshielded h.contents

theorem create (h : Inv s) (i : Nat) : Inv (s.create i) where
  balance := by
    have hcount : ∀ p : WorkerPc → Bool, p .waitItem = false → (s.create i).count p = s.count p := by
      intro p hp
      simp [Pool.count, Pool.create, List.countP_append, hp]
    rw [hcount _ rfl, hcount _ rfl, hcount _ rfl]
    exact h.balance
  shielded w hw := by
    cases List.mem_append.mp hw with
    | inl hold => exact h.shielded w hold
    | inr hnew =>
        obtain rfl := List.mem_singleton.mp hnew
        nofun
  sized := h.sized
  adjusting := h.adjusting
  unstarted := h.unstarted
  contents := h.contents

/-! ## The main thread -/

theorem inserted_lt_of_store (h : Inv s) {fd : Int} (hpc : s.main = .store fd) :
    s.sbuf.inserted.length < s.sbuf.removed.length + sbufsize := by
  have hslots := h.balance.slots
  rw [hpc] at hslots
  have hone : (MainPc.store fd).reserved.toNat = 1 := rfl
  omega

theorem inserted_insert {b' : Sbuf} {pc pc' : MainPc} (hs : sbufInsert b pc = some (b', pc')) :
    b.inserted.length ≤ b'.inserted.length ∧ pc'.starting = false := by
  cases pc <;> simp only [sbufInsert] at hs
  case spawn | startAdjuster | accept => cases hs
  case waitSlot | waitMutex =>
    obtain ⟨-, heq⟩ := map_P hs
    obtain ⟨rfl, rfl⟩ := Prod.mk.inj heq
    exact ⟨Nat.le_refl _, rfl⟩
  all_goals
    obtain ⟨rfl, rfl⟩ := Prod.mk.inj (Option.some.inj hs)
    simp

theorem insert (h : Inv s) {pc : MainPc} (hs : sbufInsert s.sbuf s.main = some (b, pc)) :
    Inv { s with sbuf := b, main := pc } where
  balance := by
    have hbalance := h.balance
    rw [Nat.add_assoc, Nat.add_comm] at hbalance ⊢
    exact balance_insert hbalance hs
  shielded := h.shielded
  sized := h.sized
  adjusting := h.adjusting
  unstarted hstarting := by
    rw [(inserted_insert hs).2] at hstarting
    cases hstarting
  contents hlt := by
    have hold := h.contents (Nat.lt_of_le_of_lt (inserted_insert hs).1 hlt)
    exact contents_insert hold hs (fun fd hpc => ⟨h.inserted_lt_of_store hpc, h.removed_le⟩) hlt

theorem goto (h : Inv s) {pc : MainPc} (hclass : s.main.holdsMutex = false ∧
      s.main.reserved = false ∧ s.main.stored = false)
    (hclass' : pc.holdsMutex = false ∧ pc.reserved = false ∧ pc.stored = false)
    {pc' : AdjusterPc} (hadjuster : pc'.holdsMutex = s.adjuster.holdsMutex)
    (hadjusting : Adjusting pc') (hunstarted : pc.starting → pc' = .notStarted) :
    Inv { s with main := pc, adjuster := pc' } where
  balance := by
    have hbalance := h.balance
    simp only [hclass] at hbalance
    simp only [hclass', hadjuster]
    exact hbalance
  shielded := h.shielded
  sized := h.sized
  adjusting := hadjusting
  unstarted := hunstarted
  contents := h.contents

theorem runMain (h : Inv s) (hs : s.runMain = some s') : Inv s' := by
  unfold Pool.runMain at hs
  cases hpc : s.main with
  | spawn i =>
      have hnot : s.adjuster = .notStarted := h.unstarted (by rw [hpc]; rfl)
      simp only [hpc] at hs
      split at hs
      · obtain rfl := Option.some.inj hs
        apply (h.create i).goto
        · simp [Pool.create, hpc]
        · simp
        · rfl
        · exact h.adjusting
        · exact fun _ => hnot
      · obtain rfl := Option.some.inj hs
        apply h.goto
        · simp [hpc]
        · simp
        · rfl
        · exact h.adjusting
        · exact fun _ => hnot
  | startAdjuster =>
      have hnot : s.adjuster = .notStarted := h.unstarted (by rw [hpc]; rfl)
      simp only [hpc] at hs
      obtain rfl := Option.some.inj hs
      apply h.goto
      · simp [hpc]
      · simp
      · rw [hnot]
        rfl
      · trivial
      · nofun
  | _ =>
      simp only [hpc] at hs
      rw [← hpc] at hs
      obtain ⟨⟨b, pc⟩, hstep, rfl⟩ := Option.map_eq_some_iff.mp hs
      exact h.insert hstep

theorem accept (h : Inv s) {fd : Int} (hpc : s.main = .accept) :
    Inv { s with main := .waitSlot fd } := by
  apply h.goto
  · simp [hpc]
  · simp
  · rfl
  · exact h.adjusting
  · nofun

/-! ## The adjusting thread -/

theorem adjust (h : Inv s) {mutex : Nat} (hstarted : s.adjuster ≠ .notStarted)
    (hmutex : mutex + pc.holdsMutex.toNat = s.sbuf.mutex + s.adjuster.holdsMutex.toNat)
    (hadjusting : Adjusting pc) :
    Inv { s with sbuf := { s.sbuf with mutex := mutex }, adjuster := pc } where
  balance := by
    obtain ⟨hold, hitems, hslots⟩ := h.balance
    refine ⟨?_, hitems, hslots⟩
    show mutex + (s.main.holdsMutex.toNat + pc.holdsMutex.toNat + s.count WorkerPc.holdsMutex) = 1
    omega
  shielded := h.shielded
  sized := h.sized
  adjusting := hadjusting
  unstarted hstarting := absurd (h.unstarted hstarting) hstarted
  contents hlt :=
    have hold := h.contents hlt
    ⟨hold.rear, hold.front, hold.window, hold.order⟩

theorem resize (h : Inv s) {n : Nat} (hn : Sized n) : Inv { s with currentNthreads := n } where
  balance := h.balance
  shielded := h.shielded
  sized := hn
  adjusting := h.adjusting
  unstarted := h.unstarted
  contents := h.contents

theorem lock (h : Inv s) {pc' : AdjusterPc}
    (hs : ((P s.sbuf.mutex).toOption.map fun mutex =>
      { s with sbuf := { s.sbuf with mutex := mutex }, adjuster := pc' }) = some s')
    (hpc : s.adjuster = pc) (hfree : pc.holdsMutex = false) (hstarted : pc ≠ .notStarted)
    (hholds : pc'.holdsMutex = true) (hadjusting : Adjusting pc') : Inv s' := by
  obtain ⟨hpos, rfl⟩ := map_P hs
  subst hpc
  apply h.adjust hstarted ?_ hadjusting
  rw [hfree, hholds, Bool.toNat_true, Bool.toNat_false]
  omega

theorem adjusting_full (h : Sized s.currentNthreads) (full : Bool) :
    let pc := if full then
        if s.currentNthreads = threadLimit then .waitFull
        else .spawn s.currentNthreads (2 * s.currentNthreads)
      else AdjusterPc.waitEmpty
    pc.holdsMutex = false ∧ Adjusting pc := by
  cases full with
  | false => exact ⟨rfl, trivial⟩
  | true =>
      by_cases hlimit : s.currentNthreads = threadLimit
      · simp only [if_true, hlimit]
        exact ⟨rfl, trivial⟩
      · simp only [if_true, hlimit, if_false]
        exact ⟨rfl, h.double hlimit⟩

theorem adjusting_empty (h : Sized s.currentNthreads) (empty : Bool) :
    let pc := if empty then
        if s.currentNthreads = nthreads then .waitFull
        else .cancel (s.currentNthreads / 2) (s.currentNthreads / 2)
      else AdjusterPc.waitFull
    pc.holdsMutex = false ∧ Adjusting pc := by
  cases empty with
  | false => exact ⟨rfl, trivial⟩
  | true =>
      by_cases hfew : s.currentNthreads = nthreads
      · simp only [if_true, hfew]
        exact ⟨rfl, trivial⟩
      · simp only [if_true, hfew, if_false]
        exact ⟨rfl, h.halve hfew⟩

theorem adjustThread (h : Inv s) (hs : s.adjustThread = some s') : Inv s' := by
  unfold Pool.adjustThread at hs
  cases hpc : s.adjuster with
  | notStarted =>
      simp only [hpc] at hs
      cases hs
  | waitFull =>
      simp only [hpc] at hs
      exact h.lock hs hpc rfl nofun rfl trivial
  | waitEmpty =>
      simp only [hpc] at hs
      exact h.lock hs hpc rfl nofun rfl trivial
  | readFull =>
      simp only [hpc] at hs
      obtain rfl := Option.some.inj hs
      exact h.adjust (by rw [hpc]; nofun) (by rw [hpc]; rfl) trivial
  | readEmpty =>
      simp only [hpc] at hs
      obtain rfl := Option.some.inj hs
      exact h.adjust (by rw [hpc]; nofun) (by rw [hpc]; rfl) trivial
  | unlockFull full =>
      simp only [hpc] at hs
      obtain rfl := Option.some.inj hs
      have hnext := adjusting_full h.sized full
      exact h.adjust (by rw [hpc]; nofun) (by rw [hpc, hnext.1]; rfl) hnext.2
  | unlockEmpty empty =>
      simp only [hpc] at hs
      obtain rfl := Option.some.inj hs
      have hnext := adjusting_empty h.sized empty
      exact h.adjust (by rw [hpc]; nofun) (by rw [hpc, hnext.1]; rfl) hnext.2
  | spawn i n =>
      have hn : Sized n := by
        have hadjusting := h.adjusting
        rwa [hpc] at hadjusting
      simp only [hpc] at hs
      split at hs
      · obtain rfl := Option.some.inj hs
        exact (h.create i).adjust (by simp [Pool.create, hpc]) (by simp [Pool.create, hpc]) hn
      · obtain rfl := Option.some.inj hs
        exact (h.resize hn).adjust (by simp [hpc]) (by simp [hpc]) trivial
  | cancel i n =>
      have hn : Sized n := by
        have hadjusting := h.adjusting
        rwa [hpc] at hadjusting
      simp only [hpc] at hs
      split at hs
      · obtain rfl := Option.some.inj hs
        have hkept : (s.requestCancel i).adjuster = .cancel i n := by
          rw [Pool.requestCancel]
          split <;> exact hpc
        exact (h.requestCancel i).adjust (by simp [hkept]) (by simp [hkept]) hn
      · obtain rfl := Option.some.inj hs
        exact (h.resize hn).adjust (by simp [hpc]) (by simp [hpc]) trivial

theorem of_step {a : Act} (h : Inv s) (hs : step s a = some s') : Inv s' := by
  cases a with
  | accept fd =>
      simp only [step] at hs
      split at hs
      · rename_i hpc
        exact Option.some.inj hs ▸ h.accept hpc
      · cases hs
  | main => exact h.runMain hs
  | adjust => exact h.adjustThread hs
  | work i =>
      obtain ⟨w, hw, hstep⟩ := Option.bind_eq_some_iff.mp hs
      exact h.runWorker hw hstep
  | actOnCancel i =>
      obtain ⟨w, hw, hstep⟩ := Option.bind_eq_some_iff.mp hs
      exact h.actOnCancel hw hstep

theorem of_run (h : Run step (fun _ _ => True) Pool.start s) : Inv s :=
  h.invariant Inv inv_start fun _ _ _ hinv _ hs => hinv.of_step hs

end Inv

/-! ## What is claimed of every run -/

def Pool.usesIndex (s : Pool) : Act → Option Nat
  | .main =>
      match s.main with
      | .spawn i => if i < nthreads then some i else none
      | _ => none
  | .adjust =>
      match s.adjuster with
      | .spawn i n => if i < n then some i else none
      | .cancel i _ => if i < s.currentNthreads then some i else none
      | _ => none
  | _ => none

/-- The queue is first in, first out and loses nothing: the removals so far, each
by one worker, are those of the first items; the others are in their slots, a
free slot is used for a store and a full one for a load. -/
structure Queued (s : Pool) : Prop where
  order : s.sbuf.removed.map Prod.snd = s.sbuf.inserted.take s.sbuf.removed.length
  removed_le : s.sbuf.removed.length ≤ s.sbuf.inserted.length
  buffered_le : s.sbuf.inserted.length - s.sbuf.removed.length ≤ sbufsize
  kept : ∀ k (h : k < s.sbuf.inserted.length), s.sbuf.removed.length ≤ k →
    s.sbuf.buf ((k + 1) % sbufsize : Nat) = s.sbuf.inserted[k]
  stores : ∀ fd, s.main = .store fd →
    s.sbuf.inserted.length - s.sbuf.removed.length < sbufsize ∧
      (s.sbuf.inserted.length + 1 < 2 ^ 31 →
        index (incr s.sbuf.rear) = ((s.sbuf.inserted.length + 1) % sbufsize : Nat))
  loads : ∀ w ∈ s.workers, w.pc = .take →
    s.sbuf.removed.length < s.sbuf.inserted.length ∧
      index (incr s.sbuf.front) = ((s.sbuf.removed.length + 1) % sbufsize : Nat)

/-- A cancellation that takes effect hits a worker without the mutex and without
a descriptor, and it takes no item away. -/
structure CancelsSafely (s : Pool) : Prop where
  idle : ∀ i s', step s (.actOnCancel i) = some s' → ∃ w, s.workers[i]? = some w ∧
    w.pc.holdsMutex = false ∧ w.pc.holdsItem = false ∧ w.pc.claimed = false
  sbuf : ∀ i s', step s (.actOnCancel i) = some s' → s'.sbuf = s.sbuf

structure InBounds (s : Pool) : Prop where
  power : ∃ k, s.currentNthreads = 4 * 2 ^ k
  bounds : 4 ≤ s.currentNthreads ∧ s.currentNthreads ≤ 4096
  indices : ∀ a i, s.usesIndex a = some i → i < threadLimit

namespace Inv

theorem queued (h : Inv s) (hlt : s.sbuf.inserted.length < 2 ^ 31) : Queued s where
  order := (h.contents hlt).order
  removed_le := h.removed_le
  buffered_le := by
    have hslots := h.balance.slots
    omega
  kept := (h.contents hlt).window
  stores fd hpc := by
    have hfree := h.inserted_lt_of_store hpc
    have hle := h.removed_le
    refine ⟨by omega, fun hnext => ?_⟩
    rw [(h.contents hlt).rear, incr_natCast hnext]
    rfl
  loads w hw hpc := by
    obtain ⟨i, hi⟩ := List.getElem?_of_mem hw
    have hfull := h.removed_lt_of_take hi hpc
    refine ⟨hfull, ?_⟩
    rw [(h.contents hlt).front, incr_natCast (by omega)]
    rfl

theorem cancelsSafely (h : Inv s) : CancelsSafely s where
  idle i s' hs := by
    obtain ⟨w, hw, hstep⟩ := Option.bind_eq_some_iff.mp hs
    unfold Pool.actOnCancel at hstep
    split at hstep
    · rename_i hc
      have hpc := eq_waitItem_of_cancellable (h.shielded_of_getElem? hw) hc
      refine ⟨w, hw, ?_⟩
      rw [hpc]
      exact ⟨rfl, rfl, rfl⟩
    · cases hstep
  sbuf i s' hs := by
    obtain ⟨w, -, hstep⟩ := Option.bind_eq_some_iff.mp hs
    unfold Pool.actOnCancel at hstep
    split at hstep
    · obtain rfl := Option.some.inj hstep
      rfl
    · cases hstep

theorem inBounds (h : Inv s) : InBounds s where
  power := by
    obtain ⟨k, -, hk⟩ := h.sized
    exact ⟨k, hk⟩
  bounds := h.sized.bounds
  indices a i hi := by
    have hlimit : nthreads ≤ threadLimit := by decide
    cases a with
    | main =>
        simp only [Pool.usesIndex] at hi
        split at hi
        · split at hi
          · rename_i hlt
            obtain rfl := Option.some.inj hi
            exact Nat.lt_of_lt_of_le hlt hlimit
          · cases hi
        · cases hi
    | adjust =>
        have hadjusting := h.adjusting
        simp only [Pool.usesIndex] at hi
        split at hi
        · rename_i n hpc
          rw [hpc] at hadjusting
          split at hi
          · rename_i hlt
            obtain rfl := Option.some.inj hi
            exact Nat.lt_of_lt_of_le hlt (Sized.bounds hadjusting).2
          · cases hi
        · split at hi
          · rename_i hlt
            obtain rfl := Option.some.inj hi
            exact Nat.lt_of_lt_of_le hlt h.sized.bounds.2
          · cases hi
        · cases hi
    | _ => cases hi

end Inv

/-- In every interleaving with fewer than `2 ^ 31` insertions. -/
theorem thread_pool (h : Run step (fun _ _ => True) Pool.start s)
    (hlt : s.sbuf.inserted.length < 2 ^ 31) : Queued s ∧ CancelsSafely s ∧ InBounds s :=
  have hinv := Inv.of_run h
  ⟨hinv.queued hlt, hinv.cancelsSafely, hinv.inBounds⟩

def oneConnection : List Act :=
  List.replicate 6 .main ++ .accept 7 :: List.replicate 5 .main ++ List.replicate 8 (.work 0)

theorem thread_pool_oneConnection :
    ∃ s, s.sbuf.removed = [(0, 7)] ∧ s.sbuf.slots = 16 ∧ Queued s ∧ CancelsSafely s ∧
      InBounds s := by
  obtain ⟨s, hs, hremoved, hslots, hinserted⟩ :
      ∃ s, replay step (fun _ _ => True) Pool.start oneConnection = some s ∧
        s.sbuf.removed = [(0, 7)] ∧ s.sbuf.slots = 16 ∧ s.sbuf.inserted = [7] :=
    ⟨_, rfl, rfl, rfl, rfl⟩
  have hlt : s.sbuf.inserted.length < 2 ^ 31 := by
    rw [hinserted]
    decide
  exact ⟨s, hremoved, hslots, thread_pool (Run.start.of_replay hs) hlt⟩

end CsappLabs.Proxy.ThreadPool
