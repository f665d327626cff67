import Mathlib.Data.List.TakeDrop

/-!
# Buffered reading from a descriptor

The `rio` functions of `csapp.c`.  What the peer sends arrives in pieces: each
`read` returns some bytes, is interrupted by a signal, or fails because the
connection was reset, and at the end of the deliveries it returns 0.  However
the bytes are delivered, `rio_readnb` stores the next `n` of them.
-/

namespace CsappLabs.Proxy

def maxline : Nat := 8192

/-- The outcome of one `read`. -/
inductive Delivery where
  | bytes (b : UInt8) (bs : List UInt8)
  | interrupted
  | reset
  deriving DecidableEq

/-- `rio_t`: the unread bytes of the internal buffer, and what `read` will
return. -/
structure Rio where
  buffered : List UInt8
  incoming : List Delivery
  deriving DecidableEq

def rioReadinitb (incoming : List Delivery) : Rio := ⟨[], incoming⟩

/-- The loop that refills the internal buffer; `none` is an error. -/
def refill : List Delivery → Option (List UInt8) × List Delivery
  | [] => (some [], [])
  | .bytes b bs :: ds => (some (b :: bs), ds)
  | .interrupted :: ds => refill ds
  | .reset :: ds => (none, ds)

/-- The bytes that are copied out, none of them at the end of the input. -/
def rioRead (rp : Rio) (n : Nat) : Option (List UInt8) × Rio :=
  match rp.buffered with
  | b :: bs => (some ((b :: bs).take n), { rp with buffered := (b :: bs).drop n })
  | [] =>
      match refill rp.incoming with
      | (none, ds) => (none, ⟨[], ds⟩)
      | (some bs, ds) => (some (bs.take n), ⟨bs.drop n, ds⟩)

/-- The bytes that `rio_readnb` stores, and whether it returns without an
error.  Each turn of the loop stores a byte, so `fuel = nleft` suffices. -/
def readnbLoop : Nat → Rio → Nat → List UInt8 × Bool × Rio
  | 0, rp, _ => ([], true, rp)
  | fuel + 1, rp, nleft =>
      if nleft = 0 then ([], true, rp)
      else
        match rioRead rp nleft with
        | (none, rp) => ([], false, rp)
        | (some [], rp) => ([], true, rp)
        | (some (b :: bs), rp) =>
            let (more, ok, rp) := readnbLoop fuel rp (nleft - (bs.length + 1))
            (b :: bs ++ more, ok, rp)

def rioReadnb (rp : Rio) (n : Nat) : List UInt8 × Bool × Rio := readnbLoop n rp n

def readChars : Nat → Rio → List UInt8 × Bool × Rio
  | 0, rp => ([], true, rp)
  | k + 1, rp =>
      match rioRead rp 1 with
      | (none, rp) => ([], false, rp)
      | (some [], rp) => ([], true, rp)
      | (some (c :: _), rp) =>
          if c = 10 then ([c], true, rp)
          else
            let (cs, ok, rp) := readChars k rp
            (c :: cs, ok, rp)

/-- What `rio_readlineb` stores in the user's buffer, and the count that it
returns; `none` is `-1`.  The terminator is written unless it returns early. -/
def rioReadlineb (rp : Rio) (maxlen : Nat) : List UInt8 × Option Nat × Rio :=
  match readChars (maxlen - 1) rp with
  | (cs, false, rp) => (cs, none, rp)
  | (cs, true, rp) =>
      if cs = [] ∧ 1 < maxlen then ([], some 0, rp) else (cs ++ [0], some cs.length, rp)

/-! ## The bytes that are still to be read -/

def Delivery.data : Delivery → List UInt8
  | .bytes b bs => b :: bs
  | _ => []

def Rio.stream (rp : Rio) : List UInt8 := rp.buffered ++ rp.incoming.flatMap Delivery.data

def Rio.Clean (rp : Rio) : Prop := Delivery.reset ∉ rp.incoming

/-- No byte arrives after a reset. -/
def ResetLast : List Delivery → Prop
  | [] => True
  | .reset :: ds => ds.flatMap Delivery.data = []
  | _ :: ds => ResetLast ds

variable {rp : Rio} {n : Nat} {ds : List Delivery}

theorem resetLast_of_clean (h : Delivery.reset ∉ ds) : ResetLast ds := by
  induction ds with
  | nil => exact trivial
  | cons d ds ih =>
      simp only [List.mem_cons, not_or] at h
      cases d with
      | bytes b bs => exact ih h.2
      | interrupted => exact ih h.2
      | reset => exact absurd rfl h.1

theorem resetLast_of_silent (h : ds.flatMap Delivery.data = []) : ResetLast ds := by
  induction ds with
  | nil => exact trivial
  | cons d ds ih =>
      cases d with
      | bytes b bs => cases h
      | interrupted => exact ih h
      | reset => exact h

theorem refill_spec (h : ResetLast ds) :
    ∃ out ds', refill ds = (out, ds') ∧
      out.getD [] ++ ds'.flatMap Delivery.data = ds.flatMap Delivery.data ∧
      (out.getD [] = [] → ds.flatMap Delivery.data = []) ∧ ResetLast ds' ∧
      (Delivery.reset ∉ ds → out.isSome ∧ Delivery.reset ∉ ds') := by
  induction ds with
  | nil => exact ⟨some [], [], rfl, rfl, fun _ => rfl, h, fun hclean => ⟨rfl, hclean⟩⟩
  | cons d ds ih =>
      simp only [List.mem_cons, not_or]
      cases d with
      | bytes b bs => exact ⟨some (b :: bs), ds, rfl, rfl, nofun, h, fun hclean => ⟨rfl, hclean.2⟩⟩
      | interrupted =>
          obtain ⟨out, ds', heq, hdata, hend, hlast, hclean⟩ := ih h
          exact ⟨out, ds', heq, hdata, hend, hlast, fun hc => hclean hc.2⟩
      | reset =>
          exact ⟨none, ds, rfl, rfl, fun _ => h, resetLast_of_silent h, fun hc => absurd rfl hc.1⟩

/-- A read hands out bytes from the front of the stream, and none only when
the stream is over.  It fails only on a connection that is reset. -/
theorem rioRead_resetLast (h : ResetLast rp.incoming) (hn : 0 < n) :
    ∃ out rp', rioRead rp n = (out, rp') ∧ out.getD [] ++ rp'.stream = rp.stream ∧
      (out.getD []).length ≤ n ∧ (out.getD [] = [] → rp.stream = []) ∧ ResetLast rp'.incoming ∧
      (rp.Clean → out.isSome ∧ rp'.Clean) := by
  obtain ⟨buffered, incoming⟩ := rp
  have htake : ∀ bs : List UInt8, bs.take n = [] → bs = [] := by
    intro bs hnil
    exact (List.take_eq_nil_iff.mp hnil).resolve_left (Nat.ne_of_gt hn)
  cases buffered with
  | cons b bs =>
      refine ⟨some ((b :: bs).take n), ⟨(b :: bs).drop n, incoming⟩, rfl, ?_,
        List.length_take_le _ _, fun hnil => absurd (htake _ hnil) (List.cons_ne_nil b bs), h,
        fun hclean => ⟨rfl, hclean⟩⟩
      rw [Rio.stream, Rio.stream, Option.getD_some, ← List.append_assoc, List.take_append_drop]
  | nil =>
      obtain ⟨out, ds', heq, hdata, hend, hlast, hclean⟩ := refill_spec h
      cases out with
      | none =>
          exact ⟨none, ⟨[], ds'⟩, by simp [rioRead, heq], hdata, Nat.zero_le n, fun _ => hend rfl,
            hlast, fun hc => absurd (hclean hc).1 Bool.false_ne_true⟩
      | some bs =>
          refine ⟨some (bs.take n), ⟨bs.drop n, ds'⟩, by simp [rioRead, heq], ?_,
            List.length_take_le _ _, fun hnil => hend (htake _ hnil), hlast,
            fun hc => ⟨rfl, (hclean hc).2⟩⟩
          rw [Rio.stream, Rio.stream, Option.getD_some, ← List.append_assoc,
            List.take_append_drop]
          exact hdata

theorem rioRead_spec (h : rp.Clean) (hn : 0 < n) :
    ∃ bs rp', rioRead rp n = (some bs, rp') ∧ bs ++ rp'.stream = rp.stream ∧
      bs.length ≤ n ∧ (bs = [] → rp.stream = []) ∧ rp'.Clean := by
  obtain ⟨out, rp', heq, hstream, hlen, hend, -, hclean⟩ :=
    rioRead_resetLast (resetLast_of_clean h) hn
  obtain ⟨hsome, hclean'⟩ := hclean h
  obtain ⟨bs, rfl⟩ := Option.isSome_iff_exists.mp hsome
  exact ⟨bs, rp', heq, hstream, hlen, hend, hclean'⟩

theorem readnbLoop_spec (fuel : Nat) (h : ResetLast rp.incoming) (hfuel : n ≤ fuel) :
    ∃ ok rp', readnbLoop fuel rp n = (rp.stream.take n, ok, rp') ∧
      rp'.stream = rp.stream.drop n ∧ ResetLast rp'.incoming ∧
      (rp.Clean → ok = true ∧ rp'.Clean) := by
  induction fuel generalizing rp n with
  | zero =>
      obtain rfl : n = 0 := Nat.le_zero.mp hfuel
      exact ⟨true, rp, by simp [readnbLoop], rfl, h, fun hclean => ⟨rfl, hclean⟩⟩
  | succ fuel ih =>
      by_cases hn : n = 0
      · subst hn
        exact ⟨true, rp, by simp [readnbLoop], rfl, h, fun hclean => ⟨rfl, hclean⟩⟩
      · obtain ⟨out, rp₁, heq, hstream, hlen, hend, hlast, hclean⟩ :=
          rioRead_resetLast h (Nat.pos_of_ne_zero hn)
        match out with
        | none =>
            have hnil : rp.stream = [] := hend rfl
            refine ⟨false, rp₁, by simp [readnbLoop, hn, heq, hnil], ?_, hlast,
              fun hc => absurd (hclean hc).1 Bool.false_ne_true⟩
            rw [hnil] at hstream
            rw [hnil, List.drop_nil]
            exact hstream
        | some [] =>
            have hnil : rp.stream = [] := hend rfl
            refine ⟨true, rp₁, by simp [readnbLoop, hn, heq, hnil], ?_, hlast,
              fun hc => ⟨rfl, (hclean hc).2⟩⟩
            rw [hnil] at hstream
            rw [hnil, List.drop_nil]
            exact hstream
        | some (b :: bs) =>
            rw [Option.getD_some] at hstream hlen
            simp only [List.length_cons] at hlen
            obtain ⟨ok, rp', heq', hstream', hlast', hclean'⟩ :=
              ih (n := n - (bs.length + 1)) hlast (by omega)
            have hsplit : n = (b :: bs).length + (n - (bs.length + 1)) := by
              simp only [List.length_cons]
              omega
            refine ⟨ok, rp', ?_, ?_, hlast', fun hc => hclean' (hclean hc).2⟩
            · simp only [readnbLoop, hn, if_false, heq, heq', Prod.mk.injEq]
              rw [← hstream, hsplit, List.take_length_add_append, ← hsplit]
              simp
            · rw [hstream', ← hstream, hsplit, List.drop_length_add_append, ← hsplit]

/-- Also a call that fails has stored the bytes from the front of the stream. -/
theorem rioReadnb_resetLast (n : Nat) (h : ResetLast rp.incoming) :
    ∃ ok rp', rioReadnb rp n = (rp.stream.take n, ok, rp') ∧
      rp'.stream = rp.stream.drop n ∧ ResetLast rp'.incoming ∧
      (rp.Clean → ok = true ∧ rp'.Clean) :=
  readnbLoop_spec n h (Nat.le_refl n)

/-! ## Each call takes something from the connection -/

def Rio.pending (rp : Rio) : Nat := rp.stream.length + rp.incoming.length

theorem refill_pending (ds : List Delivery) :
    match refill ds with
    | (none, ds') => (ds'.flatMap Delivery.data).length + ds'.length <
        (ds.flatMap Delivery.data).length + ds.length
    | (some bs, ds') => (bs ++ ds'.flatMap Delivery.data).length + ds'.length ≤
        (ds.flatMap Delivery.data).length + ds.length := by
  induction ds with
  | nil => exact Nat.le_refl 0
  | cons d ds ih =>
      cases d with
      | bytes b bs =>
          simp only [refill, List.flatMap_cons, Delivery.data, List.length_cons]
          omega
      | interrupted =>
          simp only [refill, List.flatMap_cons, Delivery.data, List.nil_append, List.length_cons]
          generalize refill ds = r at ih ⊢
          obtain ⟨out, ds'⟩ := r
          cases out <;> simp only [List.length_append] at ih ⊢ <;> omega
      | reset =>
          simp only [refill, List.flatMap_cons, Delivery.data, List.nil_append, List.length_cons]
          omega

theorem rioRead_pending (rp : Rio) (n : Nat) :
    match rioRead rp n with
    | (none, rp') => rp'.pending < rp.pending
    | (some bs, rp') => rp'.pending + bs.length ≤ rp.pending := by
  obtain ⟨buffered, incoming⟩ := rp
  cases buffered with
  | cons b bs =>
      simp only [rioRead, Rio.pending, Rio.stream, List.length_append, List.length_take,
        List.length_drop]
      omega
  | nil =>
      have hrefill := refill_pending incoming
      simp only [rioRead]
      generalize refill incoming = r at hrefill ⊢
      obtain ⟨out, ds'⟩ := r
      cases out with
      | none => simpa [Rio.pending, Rio.stream] using hrefill
      | some bs =>
          simp only [Rio.pending, Rio.stream, List.length_append, List.length_take,
            List.length_drop, List.nil_append] at hrefill ⊢
          omega

theorem readChars_pending (k : Nat) (rp : Rio) :
    match readChars k rp with
    | (cs, true, rp') => rp'.pending + cs.length ≤ rp.pending
    | (_, false, rp') => rp'.pending < rp.pending := by
  induction k generalizing rp with
  | zero => exact Nat.le_refl _
  | succ k ih =>
      have hread := rioRead_pending rp 1
      simp only [readChars]
      generalize rioRead rp 1 = r at hread ⊢
      obtain ⟨out, rp₁⟩ := r
      match out with
      | none => exact hread
      | some [] => exact hread
      | some (c :: bs) =>
          simp only [List.length_cons] at hread
          by_cases hc : c = 10
          · simp only [hc, if_true, List.length_singleton]
            omega
          · have hrest := ih rp₁
            simp only [hc, if_false]
            generalize readChars k rp₁ = r at hrest ⊢
            obtain ⟨cs, ok, rp'⟩ := r
            cases ok <;> simp only [List.length_cons] at hrest ⊢ <;> omega

theorem rioReadlineb_pending (rp : Rio) {maxlen : Nat} (hmax : 1 < maxlen) :
    (rioReadlineb rp maxlen).2.2.pending ≤ rp.pending ∧
      ((rioReadlineb rp maxlen).2.1 ≠ some 0 →
        (rioReadlineb rp maxlen).2.2.pending < rp.pending) := by
  have hchars := readChars_pending (maxlen - 1) rp
  unfold rioReadlineb
  generalize readChars (maxlen - 1) rp = r at hchars ⊢
  obtain ⟨cs, ok, rp'⟩ := r
  cases ok with
  | false => exact ⟨Nat.le_of_lt hchars, fun _ => hchars⟩
  | true =>
      cases cs with
      | nil => simpa [hmax] using hchars
      | cons c cs =>
          simp only [List.length_cons] at hchars
          refine ⟨?_, fun _ => ?_⟩ <;>
          · simp only [reduceCtorEq, false_and, if_false]
            omega

end CsappLabs.Proxy
