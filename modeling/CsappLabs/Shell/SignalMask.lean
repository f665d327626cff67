import CsappLabs.Shell.Foreground

/-!
# The signal mask

`eval` blocks `SIGCHLD` before it forks, and afterwards unblocks the signals of
`prev_all`, which is empty.  The mask is as before only when the command is
built in, or when `SIGCHLD` was blocked already.
-/

namespace CsappLabs.Shell

open CsappLabs.Foundation

variable {s s' s₁ : Tsh} {e : Event} {line : Line} {mask : Sigset}

def Evaluating (s : Tsh) (_ : Event) : Prop := s.pc ≠ .prompt

/-- The mask of the main flow is `before` until `eval` blocks `SIGCHLD`, and
`after` from then on. -/
def MaskOk (before after : Sigset) (s : Tsh) : Prop :=
  match s.pc with
  | .prompt => s.handler = none ∧ s.blocked = after
  | .block _ => s.mainMask = before ∧ after = insert sigchld before
  | .failed => True
  | _ => s.mainMask = after

variable {before after : Sigset}

theorem MaskOk.mainMask (h : MaskOk before after s) (hpc : ∀ line, s.pc ≠ .block line)
    (hf : s.pc ≠ .failed) : s.mainMask = after := by
  unfold MaskOk at h
  cases hs : s.pc with
  | prompt =>
      rw [hs] at h
      rw [Tsh.mainMask, hs, ← h.2]
      exact congrArg (Option.getD · _) h.1
  | block line => exact absurd hs (hpc line)
  | failed => exact absurd hs hf
  | _ => rw [hs] at h; exact h

/-- The mask of the process is that of the main flow, and `MaskOk` tells it. -/
def At.settled : At → Bool
  | .block _ | .suspended _ | .failed => false
  | _ => true

theorem mainMask_of_settled (hidle : s.handler = none) (hpc : s.pc.settled) :
    s.mainMask = s.blocked := by
  apply Base.mainMask_of_pc hidle
  intro mask hs
  rw [hs] at hpc
  cases hpc

theorem MaskOk.blocked (h : MaskOk before after s) (hidle : s.handler = none)
    (hpc : s.pc.settled) : s.blocked = after := by
  rw [← mainMask_of_settled hidle hpc]
  apply h.mainMask
  · intro line hs
    rw [hs] at hpc
    cases hpc
  · intro hs
    rw [hs] at hpc
    cases hpc

theorem maskOk_of_blocked (hidle : s.handler = none) (hpc : s.pc.settled)
    (hb : s.blocked = after) : MaskOk before after s := by
  have hm := (mainMask_of_settled hidle hpc).trans hb
  unfold MaskOk
  cases hs : s.pc with
  | prompt => exact ⟨hidle, hb⟩
  | block line =>
      rw [hs] at hpc
      cases hpc
  | failed => trivial
  | _ => exact hm

theorem MaskOk.advance (h : MaskOk before after s) (hidle : s.handler = none)
    (hs : s.advance s.pc = some s') : MaskOk before after s' := by
  have hb := h.blocked hidle
  cases hpc : s.pc <;> rw [hpc] at hs hb
  case prompt | fork | suspended | exited | failed => cases hs
  case block line =>
    rw [MaskOk, hpc] at h
    obtain ⟨hm, rfl⟩ := h
    rw [Base.mainMask_of_pc hidle (by simp [hpc])] at hm
    cases hs
    exact maskOk_of_blocked hidle rfl (by rw [hm])
  case clear | add | background | clearFg | foreground =>
    cases hs
    exact maskOk_of_blocked hidle rfl (hb rfl)
  case unblock line pid =>
    cases hs
    refine maskOk_of_blocked (by exact hidle) ?_ ?_
    · cases line.bg <;> rfl
    · exact (Finset.sdiff_empty).trans (hb rfl)
  case cont bg i curPid =>
    cases hs
    refine maskOk_of_blocked (by exact hidle) ?_ (hb rfl)
    cases bg <;> rfl
  case waitfg pid =>
    simp only [Tsh.advance] at hs
    split at hs
    · cases hs
      exact maskOk_of_blocked hidle rfl (hb rfl)
    · split at hs <;> cases hs <;> exact maskOk_of_blocked hidle rfl (hb rfl)
  case loop =>
    simp only [Tsh.advance] at hs
    split at hs
    · cases hs
      exact maskOk_of_blocked hidle rfl (hb rfl)
    · cases hs
      exact hb rfl

/-- The handler changes the mask that it runs with, not the one that it
restores. -/
theorem handle_mask (s : Tsh) (c : Child) :
    ((s.collect c).handle c).handler = s.handler ∧
      (((s.collect c).handle c).pc = .failed ∨ ((s.collect c).handle c).pc = s.pc) := by
  obtain ⟨-, hpc, hh, -⟩ := Base.collect_same s c
  rw [← hpc, ← hh]
  generalize s.collect c = t
  have hflag : ∀ b : Bool, (if c.pid = fgpid t.table.jobs then { t with flag := b } else t).handler =
      t.handler ∧ (if c.pid = fgpid t.table.jobs then { t with flag := b } else t).pc = t.pc := by
    intro b
    split <;> exact ⟨rfl, rfl⟩
  rw [Tsh.handle]
  split
  · exact ⟨(hflag true).1, .inl rfl⟩
  · split <;> exact ⟨(hflag true).1, .inr (hflag true).2⟩

theorem MaskOk.step (h : MaskOk before after s) (hev : s.pc ≠ .prompt)
    (hs : s.step e = some s') : MaskOk before after s' := by
  -- the main flow stands still, and the mask that it will see is the same
  have hsame : ∀ t : Tsh, t.pc = s.pc → t.mainMask = s.mainMask → MaskOk before after t := by
    intro t hpc hm
    unfold MaskOk at h ⊢
    rw [hpc, hm]
    cases hs : s.pc with
    | prompt => exact absurd hs hev
    | _ => rw [hs] at h; exact h
  have hmain : ∀ t : Tsh, t.pc = s.pc → t.handler.getD t.blocked = s.handler.getD s.blocked →
      t.mainMask = s.mainMask := by
    intro t hpc hm
    unfold Tsh.mainMask
    rw [hpc, hm]
  obtain ⟨hover, hmoves⟩ := moves_of_step hs
  cases hmoves with
  | read line idle pc => exact absurd pc hev
  | advance _ idle next => exact h.advance idle next
  | forked pid line idle pc pos fresh =>
      have hb := h.blocked idle (by rw [pc]; rfl)
      refine maskOk_of_blocked (by exact idle) ?_ hb
      cases line.bg <;> rfl
  | wake mask idle pc =>
      rw [MaskOk, pc] at h
      rw [Tsh.mainMask, pc] at h
      exact maskOk_of_blocked idle rfl h
  | deliver idle pending unblocked =>
      exact hsame _ rfl (hmain _ rfl (by simp [idle]))
  | reap c saved busy mem reportable =>
      obtain ⟨hh, hpc⟩ := handle_mask s c
      cases hpc with
      | inl hfailed =>
          rw [MaskOk, hfailed]
          trivial
      | inr hpc => exact hsame _ hpc (hmain _ hpc (by rw [hh, busy]; rfl))
  | handlerReturn saved busy => exact hsame _ rfl (hmain _ rfl (by simp [busy]))
  | child pid event proc => exact hsame _ rfl (hmain _ rfl rfl)

/-- When `eval` returns, the mask is the one that it was called with exactly
when the command is built in or `SIGCHLD` was blocked. -/
theorem mask_restored_iff (hread : s.step (.read line) = some s₁)
    (hrun : Run Tsh.step Evaluating s₁ s') (hreturn : s'.pc = .prompt) :
    s'.handler = none ∧ (s'.blocked = s.blocked ↔ ¬line.External ∨ sigchld ∈ s.blocked) := by
  obtain ⟨-, hmoves⟩ := moves_of_step hread
  have hmask : ∀ before after, MaskOk before after s₁ → MaskOk before after s' :=
    fun before after h₁ => hrun.invariant _ h₁ fun _ _ _ h hev hs => h.step hev hs
  cases hmoves with
  | read line idle pc =>
      have hbuiltin : ¬line.External → MaskOk s.blocked s.blocked (s.read line) := by
        intro hext
        rcases read_cases s line with ⟨-, he⟩ | ⟨-, he⟩ | ⟨hex, -⟩ |
          ⟨name, -, i, curPid, -, -, -, -, he⟩
        · rw [he, MaskOk, pc]
          exact ⟨idle, rfl⟩
        · rw [he]
          exact maskOk_of_blocked idle rfl rfl
        · exact absurd hex hext
        · rw [he]
          exact maskOk_of_blocked idle rfl rfl
      have hexternal : line.External →
          MaskOk s.blocked (insert sigchld s.blocked) (s.read line) := by
        intro hext
        rcases read_cases s line with ⟨hnot, -⟩ | ⟨hnot, -⟩ | ⟨-, he⟩ |
          ⟨name, -, i, curPid, hnot, -⟩
        · exact absurd hext hnot
        · exact absurd hext hnot
        · rw [he]
          exact ⟨congrArg (Option.getD · _) idle, rfl⟩
        · exact absurd hext hnot
      by_cases hext : line.External
      · have hend := hmask _ _ (hexternal hext)
        rw [MaskOk, hreturn] at hend
        rw [hend.2, Finset.insert_eq_self]
        exact ⟨hend.1, by simp [hext]⟩
      · have hend := hmask _ _ (hbuiltin hext)
        rw [MaskOk, hreturn] at hend
        exact ⟨hend.1, iff_of_true hend.2 (.inl hext)⟩

theorem mask_restored_iff_launch :
    ∃ s' : Tsh, s'.flag = true ∧ s'.children = [] ∧ s'.handler = none ∧
      (s'.blocked = (init ∅).blocked ↔
        ¬(launchLine false).External ∨ sigchld ∈ (init ∅).blocked) := by
  have hblock : Run Tsh.step Evaluating { init ∅ with pc := .block (launchLine false) }
      { init ∅ with blocked := insert sigchld ∅, pc := .fork (launchLine false) } :=
    Run.start.next (a := .advance) nofun rfl
  have hfork := hblock.next (a := .forked 100) nofun rfl
  have hclear := hfork.next (a := .advance) nofun rfl
  have hadd := hclear.next (a := .advance) nofun rfl
  have hunblock := hadd.next (a := .advance) nofun rfl
  have hlookup := hunblock.next (a := .advance) nofun rfl
  have hsuspend := hlookup.next (a := .advance) nofun rfl
  have hends := hsuspend.next (a := .child 100 (.ends .exited)) nofun rfl
  have hdeliver := hends.next (a := .deliver) nofun rfl
  have hreap := hdeliver.next (a := .reap 100) nofun rfl
  have hhandled := hreap.next (a := .handlerReturn) nofun rfl
  have hwake := hhandled.next (a := .wake) nofun rfl
  have hdone := hwake.next (a := .advance) nofun rfl
  exact ⟨_, rfl, rfl, mask_restored_iff rfl hdone rfl⟩

/-- After a job is started in the background `SIGCHLD` stays blocked. -/
theorem sigchld_stays_blocked :
    ¬∀ (s : Tsh) line s₁ s', s.step (.read line) = some s₁ → Run Tsh.step Evaluating s₁ s' →
      s'.pc = .prompt → s'.blocked = s.blocked := by
  intro hall
  have hblock : Run Tsh.step Evaluating { init ∅ with pc := .block (launchLine true) }
      { init ∅ with blocked := insert sigchld ∅, pc := .fork (launchLine true) } :=
    Run.start.next (a := .advance) nofun rfl
  have hfork := hblock.next (a := .forked 100) nofun rfl
  have hadd := hfork.next (a := .advance) nofun rfl
  have hdone := hadd.next (a := .advance) nofun rfl
  have hmask := hall (init ∅) (launchLine true) _ _ rfl hdone rfl
  revert hmask
  decide

end CsappLabs.Shell
