import CsappLabs.Malloc.Blocks

/-!
# What stores do to a layout

The allocators store in two places only: in the link words of nodes, which are
free blocks or lie outside the layout, and in boundary tags of blocks that are
being replaced.  `Layout.of_links` treats the first kind of store and
`Layout.replace` the second.
-/

namespace CsappLabs.Malloc

open CsappLabs.Foundation

variable {m m' m'' : Mem} {lo hi p q : Nat} {b c d : Block} {bs l r xs ys : List Block}
  {N N' : Nat → Prop}

def SamePayload (m m' : Mem) (b : Block) : Prop :=
  ∀ x, b.ptr ≤ x → x < b.ptr + b.size - 8 → m' x = m x

namespace SamePayload

theorem refl (m : Mem) (b : Block) : SamePayload m m b := fun _ _ _ => rfl

theorem trans (h : SamePayload m m' b) (h' : SamePayload m' m'' b) :
    SamePayload m m'' b := fun x h₁ h₂ => (h' x h₁ h₂).trans (h x h₁ h₂)

theorem predecessor (h : SamePayload m m' b) (hs : 16 ≤ b.size) :
    getPredecessor m' b.ptr = getPredecessor m b.ptr :=
  load_congr fun x h₁ h₂ => h x h₁ (by omega)

theorem successor (h : SamePayload m m' b) (hs : 16 ≤ b.size) :
    getSuccessor m' b.ptr = getSuccessor m b.ptr :=
  load_congr fun x h₁ h₂ => by
    unfold succPtr at h₁ h₂
    exact h x (by omega) (by omega)

end SamePayload

def KeepsAllocated (m m' : Mem) (bs : List Block) : Prop :=
  ∀ c ∈ bs, c.alloc = true → SamePayload m m' c

theorem KeepsAllocated.refl (m : Mem) (bs : List Block) : KeepsAllocated m m bs :=
  fun c _ _ => SamePayload.refl m c

theorem KeepsAllocated.trans {m'' : Mem} {cs : List Block} (h : KeepsAllocated m m' bs)
    (h' : KeepsAllocated m' m'' cs) (hsub : ∀ c ∈ bs, c.alloc = true → c ∈ cs) :
    KeepsAllocated m m'' bs :=
  fun c hc ha => (h c hc ha).trans (h' c (hsub c hc ha) ha)

/-- The blocks on both sides of `xs`, when tag writes replace these by `ys`. -/
theorem KeepsAllocated.around {m₁ m₂ : Mem} (xs ys : List Block)
    (h₁ : KeepsAllocated m m₁ (l ++ xs ++ r))
    (htags : ∀ c, c ∈ l ∨ c ∈ r → SamePayload m₁ m₂ c)
    (h₂ : KeepsAllocated m₂ m' (l ++ ys ++ r)) : KeepsAllocated m m' (l ++ r) := by
  intro c hc ha
  have hside := List.mem_append.mp hc
  have hmem : ∀ zs, c ∈ l ++ zs ++ r := by
    intro zs
    rcases hside with hl | hr
    · simp [hl]
    · simp [hr]
  exact ((h₁ c (hmem xs) ha).trans (htags c hside)).trans (h₂ c (hmem ys) ha)

theorem KeepsAllocated.without (h : KeepsAllocated m m' (l ++ c :: r)) :
    KeepsAllocated m m' (l ++ r) := by
  intro b hb ha
  refine h b ?_ ha
  rcases List.mem_append.mp hb with hl | hr
  · simp [hl]
  · simp [hr]

theorem KeepsAllocated.insert_free (h : KeepsAllocated m m' (l ++ r)) (hc : c.alloc = false) :
    KeepsAllocated m m' (l ++ c :: r) := by
  intro b hb ha
  refine h b ?_ ha
  rcases List.mem_append.mp hb with hl | hr
  · simp [hl]
  · cases List.mem_cons.mp hr with
    | inl he => simp [he, hc] at ha
    | inr hr => simp [hr]

/-! ## Stores to link words -/

/-- `m'` differs from `m` at most in the two link words of nodes in `N`. -/
def LinksOnly (N : Nat → Prop) (m m' : Mem) : Prop :=
  ∀ x, (∀ p, N p → x < p ∨ p + 8 ≤ x) → m' x = m x

namespace LinksOnly

theorem refl (N : Nat → Prop) (m : Mem) : LinksOnly N m m := fun _ _ => rfl

theorem trans (h : LinksOnly N m m') (h' : LinksOnly N m' m'') :
    LinksOnly N m m'' := fun x hx => (h' x hx).trans (h x hx)

theorem mono (h : LinksOnly N m m') (hN : ∀ p, N p → N' p) :
    LinksOnly N' m m' := fun x hx => h x fun p hp => hx p (hN p hp)

theorem storePredecessor (hp : N p) (v : Nat) : LinksOnly N m (store m p v) :=
  fun x hx => store_of_outside m v (by have := hx p hp; omega)

theorem storeSuccessor (hp : N p) (v : Nat) :
    LinksOnly N m (store m (succPtr p) v) :=
  fun x hx => store_of_outside m v (by
    have := hx p hp
    unfold succPtr
    omega)

end LinksOnly

/-- Every node of `N` is a free block of the layout or lies outside it. -/
def FreeOrOutside (lo hi : Nat) (bs : List Block) (N : Nat → Prop) : Prop :=
  ∀ p, N p → p + 20 ≤ lo ∨ hi ≤ p ∨ ∃ b ∈ bs, b.alloc = false ∧ b.ptr = p

theorem LinksOnly.samePayload (h : LinksOnly N m m') (ht : Tiles lo bs hi)
    (hN : FreeOrOutside lo hi bs N) (hc : c ∈ bs) (ha : c.alloc = true) :
    SamePayload m m' c := by
  intro x h₁ h₂
  have hlo := ht.ptr_ge hc
  have hhi := ht.ptr_add_size_le hc
  refine h x fun p hp => ?_
  rcases hN p hp with hp | hp | ⟨b, hb, hfree, rfl⟩
  · omega
  · omega
  · have h16 := ht.size_ge hb
    rcases ht.eq_or_apart hb hc with rfl | hbc | hbc
    · simp [hfree] at ha
    · omega
    · omega

theorem LinksOnly.tagged (h : LinksOnly N m m') (ht : Tiles lo bs hi) (h16 : 16 ≤ lo)
    (hN : ∀ p, N p → p + 20 ≤ lo ∨ hi ≤ p ∨ ∃ b ∈ bs, b.ptr = p)
    (hc : c ∈ bs) (htag : Tagged m c) : Tagged m' c := by
  have hlo := ht.ptr_ge hc
  have hhi := ht.ptr_add_size_le hc
  have hcs := ht.size_ge hc
  have hword : ∀ a, (a = c.ptr - 4 ∨ a = c.ptr + c.size - 8) → load m' a = load m a := by
    intro a ha
    refine load_congr fun x h₁ h₂ => h x fun p hp => ?_
    rcases hN p hp with hp | hp | ⟨b, hb, rfl⟩
    · omega
    · omega
    · have hbs := ht.size_ge hb
      rcases ht.eq_or_apart hb hc with rfl | hbc | hbc <;> omega
  exact ⟨(hword _ (.inl rfl)).trans htag.1, (hword _ (.inr rfl)).trans htag.2⟩

theorem Layout.of_links (h : Layout m lo bs hi) (hm : LinksOnly N m m')
    (hN : ∀ p, N p → p + 20 ≤ lo ∨ hi ≤ p ∨ ∃ b ∈ bs, b.ptr = p) :
    Layout m' lo bs hi := by
  have h16 := h.lo_ge
  have hword : ∀ a, (a + 12 = lo ∨ a + 8 = lo ∨ a + 4 = hi) → load m' a = load m a := by
    intro a ha
    refine load_congr fun x h₁ h₂ => hm x fun p hp => ?_
    have hle := h.tiles.le
    rcases hN p hp with hp | hp | ⟨b, hb, rfl⟩
    · omega
    · omega
    · have hge := h.tiles.ptr_ge hb
      have hend := h.tiles.ptr_add_size_le hb
      have hbs := h.tiles.size_ge hb
      omega
  have hle := h.tiles.le
  exact {
    tiles := h.tiles
    tagged := fun b hb => hm.tagged h.tiles h16 hN hb (h.tagged b hb)
    prologueHeader := (hword _ (by omega)).trans h.prologueHeader
    prologueFooter := (hword _ (by omega)).trans h.prologueFooter
    epilogue := (hword _ (by omega)).trans h.epilogue
    lo_ge := h16
    hi_lt := h.hi_lt }

theorem FreeOrOutside.nodes (h : FreeOrOutside lo hi bs N) :
    ∀ p, N p → p + 20 ≤ lo ∨ hi ≤ p ∨ ∃ b ∈ bs, b.ptr = p := by
  intro p hp
  rcases h p hp with hp | hp | ⟨b, hb, -, rfl⟩
  · exact .inl hp
  · exact .inr (.inl hp)
  · exact .inr (.inr ⟨b, hb, rfl⟩)

/-! ## Stores to the payload of an allocated block -/

/-- `m'` differs from `m` at most in the payload of `d`. -/
def PayloadOnly (d : Block) (m m' : Mem) : Prop :=
  ∀ x, x < d.ptr ∨ d.ptr + d.size ≤ x + 8 → m' x = m x

theorem PayloadOnly.samePayload (h : PayloadOnly d m m') (ht : Tiles lo bs hi) (hd : d ∈ bs)
    (hc : c ∈ bs) (hne : c ≠ d) : SamePayload m m' c := by
  intro x h₁ h₂
  rcases ht.eq_or_apart hc hd with hcd | hcd | hcd
  · exact absurd hcd hne
  · exact h x (by omega)
  · exact h x (by omega)

theorem PayloadOnly.layout (h : PayloadOnly d m m') (hl : Layout m lo bs hi) (hd : d ∈ bs) :
    Layout m' lo bs hi := by
  have hlo := hl.lo_ge
  have hdp := hl.tiles.ptr_ge hd
  have hds := hl.tiles.size_ge hd
  have hde := hl.tiles.ptr_add_size_le hd
  have hword : ∀ a, (a + 4 ≤ d.ptr ∨ d.ptr + d.size ≤ a + 8) → load m' a = load m a :=
    fun a ha => load_congr fun x h₁ h₂ => h x (by omega)
  refine ⟨hl.tiles, fun c hc => ?_, ?_, ?_, ?_, hlo, hl.hi_lt⟩
  · have htag := hl.tagged c hc
    have hcp := hl.tiles.ptr_ge hc
    have hcs := hl.tiles.size_ge hc
    rcases hl.tiles.eq_or_apart hc hd with rfl | hcd | hcd
    · exact ⟨(hword _ (by omega)).trans htag.1, (hword _ (by omega)).trans htag.2⟩
    · exact ⟨(hword _ (by omega)).trans htag.1, (hword _ (by omega)).trans htag.2⟩
    · exact ⟨(hword _ (by omega)).trans htag.1, (hword _ (by omega)).trans htag.2⟩
  · exact (hword _ (by omega)).trans hl.prologueHeader
  · exact (hword _ (by omega)).trans hl.prologueFooter
  · exact (hword _ (by omega)).trans hl.epilogue

theorem payloadOnly_poke {x : Nat} (m : Mem) (v : UInt8) (h₁ : d.ptr ≤ x)
    (h₂ : x + 8 < d.ptr + d.size) : PayloadOnly d m (poke m x v) :=
  fun y hy => poke_of_ne m v (by omega)

theorem payloadOnly_copy {n : Nat} (m : Mem) (src : Nat) (h : n + 8 ≤ d.size) :
    PayloadOnly d m (copy m d.ptr src n) :=
  fun y hy => copy_of_outside m src (by omega)

/-! ## Stores to boundary tags -/

/-- The blocks `xs` in the middle of a layout are replaced by blocks `ys` that
fill the same interval and are tagged. -/
theorem Layout.replace (h : Layout m lo (l ++ xs ++ r) hi) (hne : xs ≠ [])
    (hxs : Tiles p xs q) (hys : Tiles p ys q) (htag : ∀ y ∈ ys, Tagged m' y)
    (hout : ∀ x, x < p - 4 ∨ q - 4 ≤ x → m' x = m x) :
    Layout m' lo (l ++ ys ++ r) hi := by
  obtain ⟨q', hlx, hr⟩ := tiles_append.mp h.tiles
  obtain ⟨p', hl, hx⟩ := tiles_append.mp hlx
  obtain ⟨rfl, rfl⟩ := hxs.ends_unique hx hne
  have hlo := h.lo_ge
  have hlp := hl.le
  have hpq := hxs.le
  have hqh := hr.le
  have hword : ∀ a, (a + 4 ≤ p - 4 ∨ q - 4 ≤ a) → load m' a = load m a := by
    intro a ha
    exact load_congr fun x h₁ h₂ => hout x (by omega)
  refine ⟨?_, ?_, ?_, ?_, ?_, hlo, h.hi_lt⟩
  · exact tiles_append.mpr ⟨q, tiles_append.mpr ⟨p, hl, hys⟩, hr⟩
  · intro c hc
    simp only [List.append_assoc, List.mem_append] at hc
    rcases hc with hc | hc | hc
    · have htc := h.tagged c (by simp [hc])
      have hend := hl.ptr_add_size_le hc
      have hcs := hl.size_ge hc
      have hge := hl.ptr_ge hc
      exact ⟨(hword _ (by omega)).trans htc.1, (hword _ (by omega)).trans htc.2⟩
    · exact htag c hc
    · have htc := h.tagged c (by simp [hc])
      have hge := hr.ptr_ge hc
      have hcs := hr.size_ge hc
      exact ⟨(hword _ (by omega)).trans htc.1, (hword _ (by omega)).trans htc.2⟩
  · exact (hword _ (by omega)).trans h.prologueHeader
  · exact (hword _ (by omega)).trans h.prologueFooter
  · exact (hword _ (by omega)).trans h.epilogue

theorem Layout.segment (h : Layout m lo (l ++ xs ++ r) hi) :
    ∃ p q, Tiles lo l p ∧ Tiles p xs q ∧ Tiles q r hi := by
  obtain ⟨q, hlx, hr⟩ := tiles_append.mp h.tiles
  obtain ⟨p, hl, hx⟩ := tiles_append.mp hlx
  exact ⟨p, q, hl, hx, hr⟩

theorem store_comm (m : Mem) {a b : Nat} (v w : Nat) (h : a + 4 ≤ b ∨ b + 4 ≤ a) :
    store (store m a v) b w = store (store m b w) a v := by
  funext x
  by_cases hb : b ≤ x ∧ x < b + 4
  · have ha : ¬(a ≤ x ∧ x < a + 4) := by omega
    simp [store, hb, ha]
  · simp [store, hb]

/-- Write `t` as header and footer of the block from `p` to `q`. -/
def retag (m : Mem) (p q t : Nat) : Mem := store (store m (p - 4) t) (q - 8) t

theorem retag_eq_footer_first (m : Mem) {p q : Nat} (t : Nat) (hpq : p + 16 ≤ q) :
    store (store m (q - 8) t) (p - 4) t = retag m p q t :=
  store_comm m t t (by omega)

theorem retag_of_outside (m : Mem) {p q x : Nat} (t : Nat) (hp : 4 ≤ p) (hq : 8 ≤ q)
    (h₁ : x < p - 4 ∨ p ≤ x) (h₂ : x < q - 8 ∨ q - 4 ≤ x) : retag m p q t x = m x := by
  unfold retag
  rw [store_of_outside _ _ (by omega), store_of_outside _ _ (by omega)]

theorem retag_tagged (m : Mem) {d : Block} (hs : 16 ≤ d.size) (hm : d.size % 8 = 0)
    (hlt : d.size < 2 ^ 32) :
    Tagged (retag m d.ptr (d.ptr + d.size) d.tag) d := by
  have ha := Bool.toNat_lt_two d.alloc
  constructor
  · rw [retag, load_store_of_apart _ _ (by omega)]
    exact load_store_pack m hm ha hlt
  · exact load_store_pack _ hm ha hlt

theorem Layout.retag (h : Layout m lo (l ++ xs ++ r) hi) (hne : xs ≠ [])
    (hxs : Tiles d.ptr xs (d.ptr + d.size)) :
    Layout (retag m d.ptr (d.ptr + d.size) d.tag) lo (l ++ d :: r) hi := by
  have hd : Tiles d.ptr [d] (d.ptr + d.size) := by
    obtain ⟨c, xs, rfl⟩ := List.exists_cons_of_ne_nil hne
    have hmod := hxs.ends_mod
    obtain ⟨-, h16, -, htail⟩ := hxs
    have hle := htail.le
    exact ⟨rfl, by omega, by omega, rfl⟩
  obtain ⟨p, q, hl, hx, hr⟩ := h.segment
  obtain ⟨rfl, rfl⟩ := hxs.ends_unique hx hne
  have hlo := h.lo_ge
  have hlp := hl.le
  have hqh := hr.le
  have hhi := h.hi_lt
  have hs : 16 ≤ d.size := hd.2.1
  have hnew : Layout (Malloc.retag m d.ptr (d.ptr + d.size) d.tag) lo
      (l ++ [d] ++ r) hi :=
    h.replace hne hxs hd
      (fun y hy => by
        rw [List.mem_singleton.mp hy]
        exact retag_tagged m hs hd.2.2.1 (by omega))
      (fun x hx => retag_of_outside m _ (by omega) (by omega) (by omega) (by omega))
  simpa using hnew

theorem retag_samePayload (m : Mem) (t : Nat) (ht : Tiles lo (l ++ xs ++ r) hi)
    (hxs : Tiles p xs q) (hne : xs ≠ []) (hlo : 16 ≤ lo) (hc : c ∈ l ∨ c ∈ r) :
    SamePayload m (retag m p q t) c := by
  obtain ⟨q', hlx, hr⟩ := tiles_append.mp ht
  obtain ⟨p', hl, hx⟩ := tiles_append.mp hlx
  obtain ⟨rfl, rfl⟩ := hxs.ends_unique hx hne
  intro x h₁ h₂
  have hpq : p + 16 ≤ q := by
    obtain ⟨d, xs, rfl⟩ := List.exists_cons_of_ne_nil hne
    have hle := hxs.2.2.2.le
    have h16 := hxs.2.1
    omega
  have hlp := hl.le
  rcases hc with hc | hc
  · have hend := hl.ptr_add_size_le hc
    exact retag_of_outside m t (by omega) (by omega) (by omega) (by omega)
  · have hge := hr.ptr_ge hc
    exact retag_of_outside m t (by omega) (by omega) (by omega) (by omega)

theorem Layout.extend {n : Nat} (h : Layout m lo bs hi) (hd : d.ptr = hi)
    (hs : 16 ≤ d.size) (hmod : d.size % 8 = 0) (hn : n = hi + d.size) (hlt : n < 2 ^ 32)
    (htag : Tagged m' d) (hepi : load m' (n - 4) = pack 0 1)
    (hout : ∀ x, x < hi - 4 → m' x = m x) :
    Layout m' lo (bs ++ [d]) n := by
  have hlo := h.lo_ge
  have hle := h.tiles.le
  have hword : ∀ a, a + 4 ≤ hi - 4 → load m' a = load m a := by
    intro a ha
    exact load_congr fun x h₁ h₂ => hout x (by omega)
  refine ⟨?_, ?_, ?_, ?_, hepi, hlo, hlt⟩
  · exact tiles_append.mpr ⟨hi, h.tiles, hd, hs, hmod, hn.symm⟩
  · intro c hc
    rcases List.mem_append.mp hc with hc | hc
    · have htc := h.tagged c hc
      have hge := h.tiles.ptr_ge hc
      have hend := h.tiles.ptr_add_size_le hc
      have hcs := h.tiles.size_ge hc
      exact ⟨(hword _ (by omega)).trans htc.1, (hword _ (by omega)).trans htc.2⟩
    · rw [List.mem_singleton.mp hc]
      exact htag
  · exact (hword _ (by omega)).trans h.prologueHeader
  · exact (hword _ (by omega)).trans h.prologueFooter

end CsappLabs.Malloc
