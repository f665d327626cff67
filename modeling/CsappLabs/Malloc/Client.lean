import CsappLabs.Malloc.Coalescing

/-!
# Clients of an allocator

The driver `mdriver.c` keeps the range of every live payload and checks, after
each call, that the new one is aligned, inside the heap and apart from the
others.  `World` is that bookkeeping, `Reach` a run of valid calls, and
`Refines` what a call does to the blocks of the heap.  The results at the end
hold of every allocator that refines.
-/

namespace CsappLabs.Malloc

open CsappLabs.Foundation

structure Payload where
  ptr : Nat
  size : Nat
  deriving DecidableEq, Repr

/-- `none` is a call that does not return, the pointer `0` is `NULL`. -/
structure Allocator (σ : Type) where
  memlib : σ → Memlib
  clientWrite : σ → Nat → UInt8 → σ
  mmMalloc : σ → Nat → Option (σ × Nat)
  mmFree : σ → Nat → Option σ
  mmRealloc : σ → Nat → Nat → Option (σ × Nat)

inductive Call where
  | malloc (size : Nat)
  | free (p : Nat)
  | realloc (p size : Nat)
  | write (p k : Nat) (v : UInt8)
  deriving DecidableEq, Repr

structure World (σ : Type) where
  heap : σ
  live : List Payload

namespace World

variable {σ : Type}

def others (w : World σ) (p : Nat) : List Payload := w.live.filter (·.ptr ≠ p)

/-- The client passes live pointers and sizes below `2 ^ 31`, and stores
inside live payloads. -/
def Valid (w : World σ) : Call → Prop
  | .malloc size => size < 2 ^ 31
  | .free p => ∃ r ∈ w.live, r.ptr = p
  | .realloc p size => size < 2 ^ 31 ∧ ∃ r ∈ w.live, r.ptr = p
  | .write p k _ => ∃ r ∈ w.live, r.ptr = p ∧ k < r.size

instance (w : World σ) : (c : Call) → Decidable (w.Valid c)
  | .malloc size => inferInstanceAs (Decidable (size < 2 ^ 31))
  | .free p => inferInstanceAs (Decidable (∃ r ∈ w.live, r.ptr = p))
  | .realloc p size =>
      inferInstanceAs (Decidable (size < 2 ^ 31 ∧ ∃ r ∈ w.live, r.ptr = p))
  | .write p k _ => inferInstanceAs (Decidable (∃ r ∈ w.live, r.ptr = p ∧ k < r.size))

def exec (A : Allocator σ) (w : World σ) : Call → Option (World σ)
  | .malloc size =>
      (A.mmMalloc w.heap size).map fun r =>
        { heap := r.1, live := if r.2 = 0 then w.live else ⟨r.2, size⟩ :: w.live }
  | .free p => (A.mmFree w.heap p).map fun s => { heap := s, live := w.others p }
  | .realloc p size =>
      (A.mmRealloc w.heap p size).map fun r =>
        { heap := r.1
          live :=
            if size = 0 then w.others p
            else if r.2 = 0 then w.live
            else ⟨r.2, size⟩ :: w.others p }
  | .write p k v => some { w with heap := A.clientWrite w.heap (p + k) v }

def play (A : Allocator σ) (ok : σ → Call → Prop) [∀ s c, Decidable (ok s c)] (w : World σ) :
    List Call → Option (World σ)
  | [] => some w
  | c :: cs =>
      if w.Valid c ∧ ok w.heap c then (w.exec A c).bind fun w' => play A ok w' cs else none

end World

def Call.target : Call → Option Nat
  | .malloc _ => none
  | .free p => some p
  | .realloc p _ => some p
  | .write p _ _ => some p

variable {σ : Type} {A : Allocator σ} {Inv : σ → List Block → Prop} {base n : Nat}
  {ok : σ → Call → Prop} {s s' : σ} {bs bs' : List Block} {b c d e : Block}
  {w w₀ w' : World σ} {call : Call} {old new : Option Block}

/-- The worlds that valid calls reach, when each call meets `ok` in the state
it is made in. -/
inductive Reach (A : Allocator σ) (ok : σ → Call → Prop) (w₀ : World σ) :
    World σ → Prop where
  | start : Reach A ok w₀ w₀
  | call {w w' : World σ} {c : Call} (h : Reach A ok w₀ w) (hv : w.Valid c)
      (hok : ok w.heap c) (he : w.exec A c = some w') : Reach A ok w₀ w'

theorem Reach.of_play [∀ s c, Decidable (ok s c)] {cs : List Call} (h : Reach A ok w₀ w)
    (hp : w.play A ok cs = some w') : Reach A ok w₀ w' := by
  induction cs generalizing w with
  | nil =>
      obtain rfl : w = w' := by simpa [World.play] using hp
      exact h
  | cons c cs ih =>
      by_cases hv : w.Valid c ∧ ok w.heap c
      · simp only [World.play, if_pos hv] at hp
        obtain ⟨w₁, he, hrest⟩ := Option.bind_eq_some_iff.mp hp
        exact ih (h.call hv.1 hv.2 he) hrest
      · simp [World.play, hv] at hp

/-! ## What a call does to the blocks -/

/-- The call takes the state `s` with blocks `bs` to `s'` with blocks `bs'`;
the allocated block `old` is gone, `new` is there, and the payloads of the
others are kept. -/
structure Effect (A : Allocator σ) (Inv : σ → List Block → Prop) (s s' : σ)
    (bs bs' : List Block) (old new : Option Block) : Prop where
  inv : Inv s' bs'
  old_mem : ∀ d ∈ old, d ∈ bs ∧ d.alloc = true
  new_alloc : ∀ d ∈ new, d.alloc = true
  fresh : ∀ d ∈ new, d ∈ bs → old = some d
  mem : ∀ c, c.alloc = true → (c ∈ bs' ↔ c ∈ bs ∧ old ≠ some c ∨ new = some c)
  keeps : ∀ c ∈ bs, c.alloc = true → old ≠ some c →
    SamePayload (A.memlib s).mem (A.memlib s').mem c

theorem SameAllocated.effect (h : SameAllocated bs bs') (hinv : Inv s' bs')
    (hk : KeepsAllocated (A.memlib s).mem (A.memlib s').mem bs) :
    Effect A Inv s s' bs bs' none none where
  inv := hinv
  old_mem := by simp
  new_alloc := by simp
  fresh := by simp
  mem c hc := by simp [h c hc]
  keeps c hc ha _ := hk c hc ha

theorem Gains.effect (h : Gains bs bs' d) (hinv : Inv s' bs')
    (hk : KeepsAllocated (A.memlib s).mem (A.memlib s').mem bs) :
    Effect A Inv s s' bs bs' none (some d) where
  inv := hinv
  old_mem := by simp
  new_alloc := by simpa using h.alloc
  fresh := by simpa using fun hd => h.fresh hd
  mem c hc := by simp [h.mem c hc, eq_comm]
  keeps c hc ha _ := hk c hc ha

theorem Loses.effect (h : Loses bs bs' d) (hinv : Inv s' bs')
    (hk : ∀ c ∈ bs, c.alloc = true → c ≠ d →
      SamePayload (A.memlib s).mem (A.memlib s').mem c) :
    Effect A Inv s s' bs bs' (some d) none where
  inv := hinv
  old_mem := by simpa using ⟨h.held, h.alloc⟩
  new_alloc := by simp
  fresh := by simp
  mem c hc := by simp [h.mem c hc, eq_comm]
  keeps c hc ha hne := hk c hc ha fun e => hne (by rw [e])

theorem Effect.refl (h : Inv s bs) : Effect A Inv s s bs bs none none :=
  SameAllocated.effect (fun _ _ => Iff.rfl) h (KeepsAllocated.refl _ _)

theorem Effect.same (h : Inv s bs) (hd : d ∈ bs) (ha : d.alloc = true) :
    Effect A Inv s s bs bs (some d) (some d) where
  inv := h
  old_mem := by simpa using ⟨hd, ha⟩
  new_alloc := by simpa using ha
  fresh := by simp
  mem c hc := by
    by_cases hcd : d = c
    · simp [← hcd, hd]
    · simp [hcd]
  keeps c _ _ _ := SamePayload.refl _ c

theorem Effect.after {Inv₁ : σ → List Block → Prop} {s'' : σ} {bs'' : List Block}
    (h : Effect A Inv₁ s s' bs bs' none none) (h' : Effect A Inv s' s'' bs' bs'' old new) :
    Effect A Inv s s'' bs bs'' old new := by
  have hsame : ∀ c, c.alloc = true → (c ∈ bs' ↔ c ∈ bs) := by
    intro c hc
    simpa using h.mem c hc
  exact {
    inv := h'.inv
    old_mem := fun d hd =>
      ⟨(hsame d (h'.old_mem d hd).2).mp (h'.old_mem d hd).1, (h'.old_mem d hd).2⟩
    new_alloc := h'.new_alloc
    fresh := fun d hd hmem => h'.fresh d hd ((hsame d (h'.new_alloc d hd)).mpr hmem)
    mem := fun c hc => by rw [h'.mem c hc, hsame c hc]
    keeps := fun c hc ha hne => (h.keeps c hc ha (by simp)).trans
      (h'.keeps c ((hsame c ha).mpr hc) ha hne) }

theorem Effect.joined {l r : List Block} {lo hi : Nat} (ht : Tiles lo (l ++ d :: c :: r) hi)
    (ha : d.alloc = true) (hc : c.alloc = false)
    (hinv : Inv s' (l ++ ⟨d.ptr, d.size + c.size, true⟩ :: r))
    (hk : ∀ e, e ∈ l ∨ e ∈ r → e.alloc = true →
      SamePayload (A.memlib s).mem (A.memlib s').mem e) :
    Effect A Inv s s' (l ++ d :: c :: r) (l ++ ⟨d.ptr, d.size + c.size, true⟩ :: r) (some d)
      (some ⟨d.ptr, d.size + c.size, true⟩) := by
  have hc16 := ht.size_ge (b := c) (by simp)
  have hfresh : ⟨d.ptr, d.size + c.size, true⟩ ∉ l ++ d :: c :: r := by
    intro hmem
    have hsize := congrArg Block.size (ht.ptr_injective hmem (c := d) (by simp) rfl)
    simp only at hsize
    omega
  obtain ⟨-, hnd, hdisj⟩ := List.nodup_append.mp ht.nodup
  obtain ⟨hdr, -⟩ := List.nodup_cons.mp hnd
  refine ⟨hinv, by simpa using ha, by simp, ?_, ?_, ?_⟩
  · intro e he hmem
    obtain rfl : _ = e := Option.some.inj he
    exact absurd hmem hfresh
  · intro e he
    have hec : e ≠ c := by
      rintro rfl
      simp [hc] at he
    have hl : e ∈ l → d ≠ e := fun hel hde => hdisj e hel d (by simp) hde.symm
    have hr : e ∈ r → d ≠ e := fun her hde => hdr (hde ▸ List.mem_cons_of_mem c her)
    simp only [List.mem_append, List.mem_cons, hec, false_or, ne_eq, Option.some.injEq]
    constructor
    · rintro (hel | hed | her)
      · exact .inl ⟨.inl hel, hl hel⟩
      · exact .inr hed.symm
      · exact .inl ⟨.inr (.inr her), hr her⟩
    · rintro (⟨hel | hed | her, hne⟩ | hed)
      · exact .inl hel
      · exact absurd hed.symm hne
      · exact .inr (.inr her)
      · exact .inr (.inl hed.symm)
  · intro e he hea hne
    refine hk e ?_ hea
    simp only [List.mem_append, List.mem_cons] at he
    rcases he with hel | rfl | rfl | her
    · exact .inl hel
    · exact absurd rfl hne
    · simp [hc] at hea
    · exact .inr her

theorem Effect.moved {Inv₁ Inv₂ : σ → List Block → Prop} {s₁ s₂ : σ} {bs₁ : List Block}
    {lo hi : Nat} (h : Effect A Inv₁ s s₁ bs bs₁ none (some e)) (ht : Tiles lo bs₁ hi)
    (hd : d ∈ bs) (ha : d.alloc = true)
    (hcopy : (A.memlib s₂).mem = copy (A.memlib s₁).mem e.ptr d.ptr n) (hn : n + 8 ≤ e.size)
    (h' : Effect A Inv₂ s₂ s' bs₁ bs' (some d) none) :
    Effect A Inv₂ s s' bs bs' (some d) (some e) ∧
      ∀ k < n, k + 8 < d.size →
        (A.memlib s').mem (e.ptr + k) = (A.memlib s).mem (d.ptr + k) := by
  have hea : e.alloc = true := h.new_alloc e rfl
  have hmem : e ∈ bs₁ := (h.mem e hea).mpr (.inr rfl)
  have hne : d ≠ e := by
    rintro rfl
    simpa using h.fresh d rfl hd
  have hmid : ∀ c ∈ bs, c.alloc = true → c ∈ bs₁ ∧
      SamePayload (A.memlib s).mem (A.memlib s₂).mem c := by
    intro c hc hca
    have hc₁ : c ∈ bs₁ := (h.mem c hca).mpr (.inl ⟨hc, by simp⟩)
    have hce : c ≠ e := by
      rintro rfl
      simpa using h.fresh c rfl hc
    have hkept := (payloadOnly_copy (A.memlib s₁).mem d.ptr hn).samePayload ht hmem
      hc₁ hce
    rw [← hcopy] at hkept
    exact ⟨hc₁, (h.keeps c hc hca (by simp)).trans hkept⟩
  constructor
  · refine ⟨h'.inv, by simpa using ⟨hd, ha⟩, h.new_alloc, ?_, fun c hc => ?_, ?_⟩
    · exact fun c hc hcb => by simpa using h.fresh c hc hcb
    · have h₁ := h.mem c hc
      have h₂ := h'.mem c hc
      simp only [ne_eq, reduceCtorEq, not_false_eq_true, and_true, Option.some.injEq,
        or_false] at h₁ h₂ ⊢
      rw [h₂, h₁]
      constructor
      · rintro ⟨hcb | hce, hdc⟩
        · exact .inl ⟨hcb, hdc⟩
        · exact .inr hce
      · rintro (⟨hcb, hdc⟩ | rfl)
        · exact ⟨.inl hcb, hdc⟩
        · exact ⟨.inr rfl, hne⟩
    · intro c hc hca hold
      obtain ⟨hc₁, hkept⟩ := hmid c hc hca
      exact hkept.trans (h'.keeps c hc₁ hca hold)
  · intro k hk hkd
    have hkept := h'.keeps e hmem hea (by simpa using hne) (e.ptr + k) (by omega) (by omega)
    have hsame := h.keeps d hd ha (by simp) (d.ptr + k) (by omega) (by omega)
    calc (A.memlib s').mem (e.ptr + k)
        = (A.memlib s₂).mem (e.ptr + k) := hkept
      _ = copy (A.memlib s₁).mem e.ptr d.ptr n (e.ptr + k) := by rw [hcopy]
      _ = (A.memlib s₁).mem (d.ptr + k) := copy_of_inside _ _ _ _ _ hk
      _ = (A.memlib s).mem (d.ptr + k) := hsame

structure Refines (A : Allocator σ) (Inv : σ → List Block → Prop)
    (ok : σ → Call → Prop) (base : Nat) : Prop where
  start : ∀ {s bs}, Inv s bs → (A.memlib s).memStartBrk = base
  tiles : ∀ {s bs}, Inv s bs → ∃ lo, Tiles lo bs (A.memlib s).memBrk ∧
    base + 16 ≤ lo ∧ lo % 8 = base % 8
  write : ∀ {s bs d} (x : Nat) (v : UInt8), Inv s bs → d ∈ bs → d.alloc = true →
    d.ptr ≤ x → x + 8 < d.ptr + d.size → Inv (A.clientWrite s x v) bs ∧
      (A.memlib (A.clientWrite s x v)).mem = poke (A.memlib s).mem x v
  malloc : ∀ {s bs n}, Inv s bs → n < 2 ^ 31 → ok s (.malloc n) →
    (∃ s', A.mmMalloc s n = some (s', 0) ∧ Effect A Inv s s' bs bs none none) ∨
    ∃ s' bs' d, A.mmMalloc s n = some (s', d.ptr) ∧ n + 8 ≤ d.size ∧
      Effect A Inv s s' bs bs' none (some d)
  free : ∀ {s bs d}, Inv s bs → d ∈ bs → d.alloc = true → ok s (.free d.ptr) →
    ∃ s' bs', A.mmFree s d.ptr = some s' ∧ Effect A Inv s s' bs bs' (some d) none
  realloc_zero : ∀ {s bs d}, Inv s bs → d ∈ bs → d.alloc = true →
    ok s (.realloc d.ptr 0) →
    ∃ s' bs', A.mmRealloc s d.ptr 0 = some (s', 0) ∧
      Effect A Inv s s' bs bs' (some d) none
  realloc : ∀ {s bs d n}, Inv s bs → d ∈ bs → d.alloc = true → n < 2 ^ 31 → n ≠ 0 →
    ok s (.realloc d.ptr n) →
    (∃ s', A.mmRealloc s d.ptr n = some (s', 0) ∧ Effect A Inv s s' bs bs none none) ∨
    ∃ s' bs' e, A.mmRealloc s d.ptr n = some (s', e.ptr) ∧ n + 8 ≤ e.size ∧
      Effect A Inv s s' bs bs' (some d) (some e) ∧
      ∀ k < n, k + 8 < d.size →
        (A.memlib s').mem (e.ptr + k) = (A.memlib s).mem (d.ptr + k)

structure Consistent (Inv : σ → List Block → Prop) (w : World σ) (bs : List Block) :
    Prop where
  inv : Inv w.heap bs
  held : ∀ r ∈ w.live, ∃ b ∈ bs, b.alloc = true ∧ b.ptr = r.ptr ∧ r.size + 8 ≤ b.size
  distinct : (w.live.map Payload.ptr).Nodup
  live : ∀ b ∈ bs, b.alloc = true → ∃ r ∈ w.live, r.ptr = b.ptr

/-! ## One call -/

namespace Refines

theorem ptr_pos (hA : Refines A Inv ok base) (h : Inv s bs) (hb : b ∈ bs) : b.ptr ≠ 0 := by
  obtain ⟨lo, ht, hlo, -⟩ := hA.tiles h
  have := ht.ptr_ge hb
  omega

theorem ptr_injective (hA : Refines A Inv ok base) (h : Inv s bs) (hb : b ∈ bs)
    (hc : c ∈ bs) (e : b.ptr = c.ptr) : b = c := by
  obtain ⟨lo, ht, -⟩ := hA.tiles h
  exact ht.ptr_injective hb hc e

end Refines

theorem World.mem_others {p : Nat} {r : Payload} :
    r ∈ w.others p ↔ r ∈ w.live ∧ r.ptr ≠ p := by
  simp [World.others]

def keptLive (w : World σ) : Option Block → List Payload
  | none => w.live
  | some d => w.others d.ptr

theorem mem_keptLive {r : Payload} :
    r ∈ keptLive w old ↔ r ∈ w.live ∧ ∀ d ∈ old, r.ptr ≠ d.ptr := by
  cases old with
  | none => simp [keptLive]
  | some d => simp [keptLive, World.mem_others]

theorem keptLive_sublist : (keptLive w old).Sublist w.live := by
  cases old with
  | none => exact List.Sublist.refl _
  | some d => exact List.filter_sublist

namespace Consistent

theorem kept_block (h : Consistent Inv w bs) {r : Payload} (hr : r ∈ keptLive w old) :
    ∃ b ∈ bs, b.alloc = true ∧ b.ptr = r.ptr ∧ r.size + 8 ≤ b.size ∧ old ≠ some b := by
  obtain ⟨hlive, hne⟩ := mem_keptLive.mp hr
  obtain ⟨b, hb, ha, hp, hs⟩ := h.held r hlive
  refine ⟨b, hb, ha, hp, hs, fun e => hne b (by simp [e]) hp.symm⟩

theorem effect (hA : Refines A Inv ok base) (h : Consistent Inv w bs)
    (he : Effect A Inv w.heap s' bs bs' old new) (hn : ∀ d ∈ new, n + 8 ≤ d.size) :
    Consistent Inv ⟨s', (new.map fun d => ⟨d.ptr, n⟩).toList ++ keptLive w old⟩ bs' := by
  have hkept : ∀ r ∈ keptLive w old, ∃ b ∈ bs', b.alloc = true ∧ b.ptr = r.ptr ∧
      r.size + 8 ≤ b.size ∧ b ∈ bs ∧ old ≠ some b := by
    intro r hr
    obtain ⟨b, hb, ha, hp, hs, hold⟩ := h.kept_block hr
    exact ⟨b, (he.mem b ha).mpr (.inl ⟨hb, hold⟩), ha, hp, hs, hb, hold⟩
  have hnew : ∀ d ∈ new, d ∈ bs' := fun d hd =>
    (he.mem d (he.new_alloc d hd)).mpr (.inr hd)
  refine ⟨he.inv, ?_, ?_, ?_⟩
  · intro r hr
    rcases List.mem_append.mp hr with hr | hr
    · obtain ⟨d, hd, rfl⟩ : ∃ d ∈ new, ⟨d.ptr, n⟩ = r := by simpa using hr
      exact ⟨d, hnew d hd, he.new_alloc d hd, rfl, hn d hd⟩
    · obtain ⟨b, hb, ha, hp, hs, -⟩ := hkept r hr
      exact ⟨b, hb, ha, hp, hs⟩
  · have hnd : ((keptLive w old).map Payload.ptr).Nodup :=
      h.distinct.sublist (keptLive_sublist.map _)
    cases new with
    | none => simpa using hnd
    | some d =>
        simp only [Option.map_some, Option.toList_some, List.singleton_append,
          List.map_cons, List.nodup_cons]
        refine ⟨?_, hnd⟩
        rintro hmem
        obtain ⟨r, hr, hrd⟩ := List.mem_map.mp hmem
        obtain ⟨b, hb, ha, hp, -, hbs, hold⟩ := hkept r hr
        have hbd : b = d := hA.ptr_injective he.inv hb (hnew d rfl) (hp.trans hrd)
        exact hold (hbd ▸ he.fresh d rfl (hbd ▸ hbs))
  · intro b hb ha
    rcases (he.mem b ha).mp hb with ⟨hbs, hold⟩ | hbn
    · obtain ⟨r, hr, hp⟩ := h.live b hbs ha
      refine ⟨r, List.mem_append.mpr (.inr (mem_keptLive.mpr ⟨hr, ?_⟩)), hp⟩
      intro d hd hrd
      have hbd : b = d := hA.ptr_injective h.inv hbs (he.old_mem d hd).1 (hp.symm.trans hrd)
      exact hold (hbd ▸ hd)
    · exact ⟨⟨b.ptr, n⟩, by simp [hbn], rfl⟩

theorem sameBytes (h : Consistent Inv w bs) (he : Effect A Inv w.heap s' bs bs' old new)
    {r : Payload} (hr : r ∈ keptLive w old) {k : Nat} (hk : k < r.size) :
    (A.memlib s').mem (r.ptr + k) = (A.memlib w.heap).mem (r.ptr + k) := by
  obtain ⟨b, hb, ha, hp, hs, hold⟩ := h.kept_block hr
  exact he.keeps b hb ha hold _ (by omega) (by omega)

theorem empty (hinv : Inv s bs) (hfree : ∀ b ∈ bs, b.alloc = false) :
    Consistent Inv ⟨s, []⟩ bs where
  inv := hinv
  held := by simp
  distinct := List.nodup_nil
  live b hb ha := by simp [hfree b hb] at ha

/-! ## What the driver checks -/

theorem apart (hA : Refines A Inv ok base) (h : Consistent Inv w bs) {r r' : Payload}
    (hr : r ∈ w.live) (hr' : r' ∈ w.live) (hne : r.ptr ≠ r'.ptr) :
    r.ptr + r.size ≤ r'.ptr ∨ r'.ptr + r'.size ≤ r.ptr := by
  obtain ⟨b, hb, -, hp, hs⟩ := h.held r hr
  obtain ⟨c, hc, -, hp', hs'⟩ := h.held r' hr'
  obtain ⟨lo, ht, -⟩ := hA.tiles h.inv
  rcases ht.eq_or_apart hb hc with rfl | hbc | hbc
  · exact absurd (hp.symm.trans hp') hne
  · omega
  · omega

theorem inside (hA : Refines A Inv ok base) (h : Consistent Inv w bs) {r : Payload}
    (hr : r ∈ w.live) :
    base + 16 ≤ r.ptr ∧ r.ptr + r.size + 8 ≤ (A.memlib w.heap).memBrk ∧
      r.ptr % 8 = base % 8 := by
  obtain ⟨b, hb, -, hp, hs⟩ := h.held r hr
  obtain ⟨lo, ht, hlo, hmod⟩ := hA.tiles h.inv
  have hge := ht.ptr_ge hb
  have hle := ht.ptr_add_size_le hb
  have hm := ht.ptr_mod hb
  omega

end Consistent

namespace Refines

theorem exec_malloc (hA : Refines A Inv ok base) (h : Consistent Inv w bs)
    (hn : n < 2 ^ 31) (hok : ok w.heap (.malloc n)) :
    ∃ w' bs', w.exec A (.malloc n) = some w' ∧ Consistent Inv w' bs' ∧
      ∃ new, Effect A Inv w.heap w'.heap bs bs' none new := by
  rcases hA.malloc h.inv hn hok with ⟨s', heq, he⟩ | ⟨s', bs', d, heq, hd, he⟩
  · refine ⟨⟨s', w.live⟩, bs, by simp [World.exec, heq], ?_, none, he⟩
    simpa [keptLive] using h.effect hA he (n := 0) (by simp)
  · have hp : d.ptr ≠ 0 := hA.ptr_pos he.inv ((he.mem d (he.new_alloc d rfl)).mpr (.inr rfl))
    refine ⟨⟨s', ⟨d.ptr, n⟩ :: w.live⟩, bs', by simp [World.exec, heq, hp], ?_, some d, he⟩
    simpa [keptLive] using h.effect hA he (n := n) (by simpa using hd)

theorem exec_free (hA : Refines A Inv ok base) (h : Consistent Inv w bs) (hd : d ∈ bs)
    (ha : d.alloc = true) (hok : ok w.heap (.free d.ptr)) :
    ∃ w' bs', w.exec A (.free d.ptr) = some w' ∧ Consistent Inv w' bs' ∧
      Effect A Inv w.heap w'.heap bs bs' (some d) none := by
  obtain ⟨s', bs', heq, he⟩ := hA.free h.inv hd ha hok
  refine ⟨⟨s', w.others d.ptr⟩, bs', by simp [World.exec, heq], ?_, he⟩
  simpa [keptLive] using h.effect hA he (n := 0) (by simp)

theorem exec_realloc (hA : Refines A Inv ok base) (h : Consistent Inv w bs) (hd : d ∈ bs)
    (ha : d.alloc = true) (hn : n < 2 ^ 31) (hok : ok w.heap (.realloc d.ptr n)) :
    ∃ w' bs', w.exec A (.realloc d.ptr n) = some w' ∧ Consistent Inv w' bs' ∧
      ∃ old new, (∀ c ∈ old, c = d) ∧ Effect A Inv w.heap w'.heap bs bs' old new := by
  by_cases hn0 : n = 0
  · subst hn0
    obtain ⟨s', bs', heq, he⟩ := hA.realloc_zero h.inv hd ha hok
    refine ⟨⟨s', w.others d.ptr⟩, bs', by simp [World.exec, heq], ?_, some d, none,
      by simp, he⟩
    simpa [keptLive] using h.effect hA he (n := 0) (by simp)
  · rcases hA.realloc h.inv hd ha hn hn0 hok with
      ⟨s', heq, he⟩ | ⟨s', bs', e, heq, hsize, he, -⟩
    · refine ⟨⟨s', w.live⟩, bs, by simp [World.exec, heq, hn0], ?_, none, none, by simp, he⟩
      simpa [keptLive] using h.effect hA he (n := 0) (by simp)
    · have hp : e.ptr ≠ 0 :=
        hA.ptr_pos he.inv ((he.mem e (he.new_alloc e rfl)).mpr (.inr rfl))
      refine ⟨⟨s', ⟨e.ptr, n⟩ :: w.others d.ptr⟩, bs', by simp [World.exec, heq, hn0, hp], ?_,
        some d, some e, by simp, he⟩
      simpa [keptLive] using h.effect hA he (n := n) (by simpa using hsize)

theorem exec_write (hA : Refines A Inv ok base) (h : Consistent Inv w bs) {r : Payload}
    {k : Nat} (hr : r ∈ w.live) (hk : k < r.size) (v : UInt8) :
    ∃ w', w.exec A (.write r.ptr k v) = some w' ∧ Consistent Inv w' bs ∧
      (A.memlib w'.heap).mem = poke (A.memlib w.heap).mem (r.ptr + k) v := by
  obtain ⟨b, hb, ha, hp, hs⟩ := h.held r hr
  obtain ⟨hinv, hmem⟩ := hA.write (r.ptr + k) v h.inv hb ha (by omega) (by omega)
  exact ⟨_, rfl, ⟨hinv, h.held, h.distinct, h.live⟩, hmem⟩

/-- A valid call returns, leaves a consistent world, and keeps every live
payload other than the one it is passed. -/
theorem step (hA : Refines A Inv ok base) (h : Consistent Inv w bs) (hv : w.Valid call)
    (hok : ok w.heap call) :
    ∃ w' bs', w.exec A call = some w' ∧ Consistent Inv w' bs' ∧
      ∀ r ∈ w.live, call.target ≠ some r.ptr → ∀ k < r.size,
        (A.memlib w'.heap).mem (r.ptr + k) = (A.memlib w.heap).mem (r.ptr + k) := by
  cases call with
  | malloc n =>
      obtain ⟨w', bs', heq, hcons, new, he⟩ := hA.exec_malloc h hv hok
      exact ⟨w', bs', heq, hcons, fun r hr _ k hk => h.sameBytes he (show r ∈ keptLive w none from hr) hk⟩
  | free p =>
      obtain ⟨r, hr, rfl⟩ := hv
      obtain ⟨d, hd, ha, hp, -⟩ := h.held r hr
      rw [← hp] at hok ⊢
      obtain ⟨w', bs', heq, hcons, he⟩ := hA.exec_free h hd ha hok
      refine ⟨w', bs', heq, hcons, fun r' hr' hne k hk => h.sameBytes he ?_ hk⟩
      exact World.mem_others.mpr ⟨hr', fun e => hne (by rw [e]; rfl)⟩
  | realloc p n =>
      obtain ⟨hn, r, hr, rfl⟩ := hv
      obtain ⟨d, hd, ha, hp, -⟩ := h.held r hr
      rw [← hp] at hok ⊢
      obtain ⟨w', bs', heq, hcons, old, new, hold, he⟩ := hA.exec_realloc h hd ha hn hok
      refine ⟨w', bs', heq, hcons, fun r' hr' hne k hk => h.sameBytes he ?_ hk⟩
      refine mem_keptLive.mpr ⟨hr', fun c hc e => hne ?_⟩
      rw [e, hold c hc]
      rfl
  | write p k v =>
      obtain ⟨r, hr, rfl, hk⟩ := hv
      obtain ⟨w', heq, hcons, hmem⟩ := hA.exec_write h hr hk v
      refine ⟨w', bs, heq, hcons, fun r' hr' hne j hj => ?_⟩
      have hptr : r.ptr ≠ r'.ptr := fun e => hne (by rw [← e]; rfl)
      have hsep := h.apart hA hr hr' hptr
      rw [hmem, poke_of_ne _ _ (by omega)]

theorem restrict {ok' : σ → Call → Prop} (hA : Refines A Inv ok base)
    (h : ∀ s c, ok' s c → ok s c) : Refines A Inv ok' base where
  start := hA.start
  tiles := hA.tiles
  write := hA.write
  malloc hs hn hok := hA.malloc hs hn (h _ _ hok)
  free hs hd ha hok := hA.free hs hd ha (h _ _ hok)
  realloc_zero hs hd ha hok := hA.realloc_zero hs hd ha (h _ _ hok)
  realloc hs hd ha hn hn0 hok := hA.realloc hs hd ha hn hn0 (h _ _ hok)

theorem reach (hA : Refines A Inv ok base) (h₀ : ∃ bs, Consistent Inv w₀ bs)
    (h : Reach A ok w₀ w) : ∃ bs, Consistent Inv w bs := by
  induction h with
  | start => exact h₀
  | call _ hv hok he ih =>
      obtain ⟨bs, hcons⟩ := ih
      obtain ⟨w', bs', heq, hcons', -⟩ := hA.step hcons hv hok
      obtain rfl : w' = _ := Option.some.inj (heq.symm.trans he)
      exact ⟨bs', hcons'⟩

theorem reach_preserves (hA : Refines A Inv ok base) (h₀ : ∃ bs, Consistent Inv w₀ bs)
    {Q : World σ → Prop}
    (hstep : ∀ w w' bs c, Consistent Inv w bs → w.Valid c → ok w.heap c →
      w.exec A c = some w' → Q w → Q w')
    (h : Reach A ok w₀ w) (hq : Q w₀) : Q w := by
  induction h with
  | start => exact hq
  | call hprev hv hok he ih =>
      obtain ⟨bs, hcons⟩ := hA.reach h₀ hprev
      exact hstep _ _ bs _ hcons hv hok he ih

end Refines

/-! ## The pointer that a call returns -/

structure Handed (s : Memlib) (p n : Nat) (live : List Payload) : Prop where
  aligned : p % 8 = 0
  inside : s.memHeapLo ≤ p ∧ p + n - 1 ≤ s.memHeapHi
  apart : ∀ r ∈ live, p + n ≤ r.ptr ∨ r.ptr + r.size ≤ p

theorem Consistent.handed (hA : Refines A Inv ok base) (hbase : base % 8 = 0)
    {p : Nat} {live : List Payload} (h : Consistent Inv ⟨s, ⟨p, n⟩ :: live⟩ bs) :
    Handed (A.memlib s) p n live := by
  obtain ⟨h₁, h₂, h₃⟩ := h.inside hA (r := ⟨p, n⟩) (by simp)
  simp only at h₁ h₂ h₃
  have hstart : (A.memlib s).memStartBrk = base := hA.start h.inv
  refine ⟨by omega, ⟨?_, ?_⟩, fun r hr => ?_⟩
  · show (A.memlib s).memStartBrk ≤ p
    omega
  · show p + n - 1 ≤ (A.memlib s).memBrk - 1
    omega
  · refine h.apart hA (r := ⟨p, n⟩) (by simp) (List.mem_cons_of_mem _ hr) fun e => ?_
    have hnd := h.distinct
    simp only [List.map_cons, List.nodup_cons] at hnd
    exact hnd.1 (List.mem_map.mpr ⟨r, hr, e.symm⟩)

namespace Refines

theorem malloc_handed (hA : Refines A Inv ok base) (hbase : base % 8 = 0)
    (h : Consistent Inv w bs) (hn : n < 2 ^ 31) (hok : ok w.heap (.malloc n)) :
    ∃ s' p, A.mmMalloc w.heap n = some (s', p) ∧
      (p ≠ 0 → Handed (A.memlib s') p n w.live) := by
  rcases hA.malloc h.inv hn hok with ⟨s', heq, -⟩ | ⟨s', bs', d, heq, hd, he⟩
  · exact ⟨s', 0, heq, fun hp => absurd rfl hp⟩
  · have hcons := h.effect hA he (n := n) (by simpa using hd)
    exact ⟨s', d.ptr, heq, fun _ => Consistent.handed hA hbase hcons⟩

theorem realloc_handed (hA : Refines A Inv ok base) (hbase : base % 8 = 0)
    (h : Consistent Inv w bs) {p : Nat} (hv : w.Valid (.realloc p n))
    (hok : ok w.heap (.realloc p n)) :
    ∃ s' q, A.mmRealloc w.heap p n = some (s', q) ∧
      (q ≠ 0 → Handed (A.memlib s') q n (w.others p)) := by
  obtain ⟨hn, r, hr, rfl⟩ := hv
  obtain ⟨d, hd, ha, hp, -⟩ := h.held r hr
  rw [← hp] at hok ⊢
  by_cases hn0 : n = 0
  · subst hn0
    obtain ⟨s', bs', heq, -⟩ := hA.realloc_zero h.inv hd ha hok
    exact ⟨s', 0, heq, fun hq => absurd rfl hq⟩
  · rcases hA.realloc h.inv hd ha hn hn0 hok with
      ⟨s', heq, -⟩ | ⟨s', bs', e, heq, hsize, he, -⟩
    · exact ⟨s', 0, heq, fun hq => absurd rfl hq⟩
    · have hcons := h.effect hA he (n := n) (by simpa using hsize)
      exact ⟨s', e.ptr, heq, fun _ => Consistent.handed hA hbase hcons⟩

theorem realloc_bytes (hA : Refines A Inv ok base) (h : Consistent Inv w bs) {r : Payload}
    (hr : r ∈ w.live) (hn : n < 2 ^ 31) (hok : ok w.heap (.realloc r.ptr n)) {q : Nat}
    (heq : A.mmRealloc w.heap r.ptr n = some (s', q)) (hq : q ≠ 0) {k : Nat} (hk : k < n)
    (hk' : k < r.size) :
    (A.memlib s').mem (q + k) = (A.memlib w.heap).mem (r.ptr + k) := by
  obtain ⟨d, hd, ha, hp, hs⟩ := h.held r hr
  rw [← hp] at hok heq ⊢
  rcases hA.realloc h.inv hd ha hn (by omega) hok with
    ⟨t, heq', -⟩ | ⟨t, bs', e, heq', -, -, hbytes⟩
  · obtain ⟨rfl, rfl⟩ : s' = t ∧ q = 0 := by simpa [heq] using heq'
    exact absurd rfl hq
  · obtain ⟨rfl, rfl⟩ : s' = t ∧ q = e.ptr := by simpa [heq] using heq'
    exact hbytes k hk (by omega)

end Refines

end CsappLabs.Malloc
