import CsappLabs.Foundation.Unfold
import CsappLabs.Proxy.Rio

/-!
# The results of the reading calls

What `Rio_readlineb` and `Rio_readnb` return when they are called on one
connection until they return 0.  A call that fails has stored what came before
the reset.
-/

namespace CsappLabs.Proxy

open CsappLabs.Foundation

/-- A call returns how many bytes it has read, or `-1`. -/
inductive ReadResult (max : Nat) where
  | bytes (data : List UInt8) (h : data ≠ [] ∧ data.length ≤ max)
  | reset (data : List UInt8) (h : data.length ≤ max)
  deriving DecidableEq

variable {max n : Nat} {rp rp' : Rio} {cs line rest : List UInt8}

/-- A line does not have its terminator yet. -/
abbrev LineRead := ReadResult (maxline - 1)

abbrev ChunkRead := ReadResult maxline

def ReadResult.data : ReadResult max → List UInt8
  | bytes data _ => data
  | reset data _ => data

def ReadResult.count : ReadResult max → Option Nat
  | bytes data _ => some data.length
  | reset _ _ => none

/-- What `Rio_readlineb` stores; the terminator is written when it does not
fail. -/
def ReadResult.stored : ReadResult max → List UInt8
  | bytes data _ => data ++ [0]
  | reset data _ => data

def resultOf (r : List UInt8 × Bool × Rio) (h : r.1.length ≤ max) :
    Option (ReadResult max × Rio) :=
  if r.2.1 then
    if hnil : r.1 = [] then none else some (.bytes r.1 ⟨hnil, h⟩, r.2.2)
  else some (.reset r.1 h, r.2.2)

theorem length_readChars (k : Nat) (rp : Rio) : (readChars k rp).1.length ≤ k := by
  induction k generalizing rp with
  | zero => exact Nat.le_refl 0
  | succ k ih =>
      rw [readChars]
      obtain ⟨out, rp₁⟩ := rioRead rp 1
      cases out with
      | none => exact Nat.zero_le _
      | some bs =>
          cases bs with
          | nil => exact Nat.zero_le _
          | cons c bs =>
              by_cases hc : c = 10
              · simp [hc]
              · simp only [hc, if_false, List.length_cons]
                exact Nat.succ_le_succ (ih rp₁)

theorem length_rioRead (rp : Rio) (n : Nat) :
    ∀ bs, (rioRead rp n).1 = some bs → bs.length ≤ n := by
  obtain ⟨buffered, incoming⟩ := rp
  intro bs h
  cases buffered with
  | cons b bs' =>
      obtain rfl := Option.some.inj h
      exact List.length_take_le _ _
  | nil =>
      simp only [rioRead] at h
      generalize refill incoming = r at h
      obtain ⟨out, ds⟩ := r
      cases out with
      | none => cases h
      | some bs' =>
          obtain rfl := Option.some.inj h
          exact List.length_take_le _ _

theorem length_readnbLoop (fuel : Nat) (rp : Rio) (n : Nat) :
    (readnbLoop fuel rp n).1.length ≤ n := by
  induction fuel generalizing rp n with
  | zero => exact Nat.zero_le n
  | succ fuel ih =>
      by_cases hn : n = 0
      · simp [readnbLoop, hn]
      · have hlen := length_rioRead rp n
        simp only [readnbLoop, hn, if_false]
        generalize rioRead rp n = r at hlen ⊢
        obtain ⟨out, rp₁⟩ := r
        cases out with
        | none => exact Nat.zero_le n
        | some bs =>
            cases bs with
            | nil => exact Nat.zero_le n
            | cons b bs =>
                have hfirst : bs.length + 1 ≤ n := hlen (b :: bs) rfl
                have hrest := ih rp₁ (n - (bs.length + 1))
                simp only [List.cons_append, List.length_cons, List.length_append]
                omega

def nextLine (rp : Rio) : Option (LineRead × Rio) :=
  resultOf (readChars (maxline - 1) rp) (length_readChars _ rp)

def nextChunk (rp : Rio) : Option (ChunkRead × Rio) :=
  resultOf (rioReadnb rp maxline) (length_readnbLoop _ rp _)

/-! ## Successive calls -/

theorem readnbLoop_pending (fuel : Nat) (rp : Rio) (n : Nat) :
    match readnbLoop fuel rp n with
    | (bs, true, rp') => rp'.pending + bs.length ≤ rp.pending
    | (_, false, rp') => rp'.pending < rp.pending := by
  induction fuel generalizing rp n with
  | zero => exact Nat.le_refl _
  | succ fuel ih =>
      by_cases hn : n = 0
      · simp [readnbLoop, hn]
      · have hread := rioRead_pending rp n
        simp only [readnbLoop, hn, if_false]
        generalize rioRead rp n = r at hread ⊢
        obtain ⟨out, rp₁⟩ := r
        cases out with
        | none => exact hread
        | some bs =>
            cases bs with
            | nil => exact hread
            | cons b bs =>
                have hrest := ih rp₁ (n - (bs.length + 1))
                simp only [List.length_cons] at hread
                dsimp only
                generalize readnbLoop fuel rp₁ (n - (bs.length + 1)) = r at hrest ⊢
                obtain ⟨more, ok, rp'⟩ := r
                cases ok with
                | true =>
                    simp only [List.cons_append, List.length_cons, List.length_append] at hrest ⊢
                    omega
                | false =>
                    dsimp only at hrest ⊢
                    omega

theorem resultOf_none {r : List UInt8 × Bool × Rio} {h : r.1.length ≤ max}
    (heq : resultOf r h = none) : ∃ rp', r = ([], true, rp') := by
  obtain ⟨data, ok, rp₁⟩ := r
  cases ok with
  | false => cases heq
  | true =>
      by_cases hnil : data = []
      · exact ⟨rp₁, by rw [hnil]⟩
      · simp [resultOf, hnil] at heq

theorem resultOf_some {r : List UInt8 × Bool × Rio} {h : r.1.length ≤ max} {x : ReadResult max}
    (heq : resultOf r h = some (x, rp')) : r = (x.data, x.count.isSome, rp') := by
  obtain ⟨data, ok, rp₁⟩ := r
  cases ok with
  | false =>
      obtain ⟨rfl, rfl⟩ := Prod.mk.inj (Option.some.inj heq)
      rfl
  | true =>
      by_cases hnil : data = []
      · simp [resultOf, hnil] at heq
      · simp only [resultOf, if_true, dif_neg hnil, Option.some.injEq, Prod.mk.injEq] at heq
        obtain ⟨rfl, rfl⟩ := heq
        rfl

theorem resultOf_bytes {r : List UInt8 × Bool × Rio} {h : r.1.length ≤ max}
    (heq : r = (cs, true, rp')) (hne : cs ≠ [] ∧ cs.length ≤ max) :
    resultOf r h = some (.bytes cs hne, rp') := by
  subst heq
  simp [resultOf, hne.1]

theorem resultOf_pending {r : List UInt8 × Bool × Rio}
    (hpending : match r with
      | (bs, true, rp') => rp'.pending + bs.length ≤ n
      | (_, false, rp') => rp'.pending < n) {h : r.1.length ≤ max} {x : ReadResult max}
    (heq : resultOf r h = some (x, rp')) : rp'.pending < n := by
  obtain rfl := resultOf_some heq
  cases x with
  | bytes data hdata =>
      have hpos := List.length_pos_of_ne_nil hdata.1
      simp only [ReadResult.data, ReadResult.count, Option.isSome_some] at hpending
      omega
  | reset data hdata => exact hpending

theorem nextLine_pending (rp : Rio) (x : LineRead) (rp' : Rio) (h : nextLine rp = some (x, rp')) :
    rp'.pending < rp.pending := resultOf_pending (readChars_pending _ rp) h

theorem nextChunk_pending (rp : Rio) (x : ChunkRead) (rp' : Rio)
    (h : nextChunk rp = some (x, rp')) : rp'.pending < rp.pending :=
  resultOf_pending (readnbLoop_pending _ rp _) h

def Rio.lines (rp : Rio) : List LineRead := results nextLine Rio.pending rp

def Rio.chunks (rp : Rio) : List ChunkRead := results nextChunk Rio.pending rp

theorem lines_of_none (h : nextLine rp = none) : rp.lines = [] := results_none h

theorem lines_of_some {x : LineRead} (h : nextLine rp = some (x, rp')) :
    rp.lines = x :: rp'.lines := results_some nextLine_pending h

theorem chunks_of_none (h : nextChunk rp = none) : rp.chunks = [] := results_none h

theorem chunks_of_some {x : ChunkRead} (h : nextChunk rp = some (x, rp')) :
    rp.chunks = x :: rp'.chunks := results_some nextChunk_pending h

theorem rioReadlineb_of_none (h : nextLine rp = none) :
    ∃ rp', rioReadlineb rp maxline = ([], some 0, rp') := by
  have hmax : 1 < maxline := by decide
  obtain ⟨rp', hchars⟩ := resultOf_none h
  refine ⟨rp', ?_⟩
  simp only [rioReadlineb, hchars]
  exact if_pos ⟨trivial, hmax⟩

theorem rioReadlineb_of_some {x : LineRead} (h : nextLine rp = some (x, rp')) :
    rioReadlineb rp maxline = (x.stored, x.count, rp') := by
  have hchars := resultOf_some h
  simp only [rioReadlineb, hchars]
  cases x with
  | bytes data hdata => exact if_neg fun hboth => hdata.1 hboth.1
  | reset data hdata => rfl

/-! ## Lines that arrive -/

def arrivingFrom : List Delivery → List UInt8
  | [] => []
  | .bytes b bs :: ds => b :: bs ++ arrivingFrom ds
  | .interrupted :: ds => arrivingFrom ds
  | .reset :: _ => []

/-- The bytes that can be read before the connection is reset. -/
def Rio.arriving (rp : Rio) : List UInt8 := rp.buffered ++ arrivingFrom rp.incoming

theorem refill_arriving {ds : List Delivery} {b : UInt8} (h : arrivingFrom ds = b :: rest) :
    ∃ bs ds', refill ds = (some (b :: bs), ds') ∧ bs ++ arrivingFrom ds' = rest := by
  induction ds with
  | nil => cases h
  | cons d ds ih =>
      cases d with
      | bytes c cs =>
          obtain ⟨rfl, hrest⟩ := List.cons.inj h
          exact ⟨cs, ds, rfl, hrest⟩
      | interrupted => exact ih h
      | reset => cases h

theorem rioRead_arriving {b : UInt8} (h : rp.arriving = b :: rest) :
    ∃ rp', rioRead rp 1 = (some [b], rp') ∧ rp'.arriving = rest := by
  obtain ⟨buffered, incoming⟩ := rp
  cases buffered with
  | cons c cs =>
      obtain ⟨rfl, hrest⟩ := List.cons.inj h
      exact ⟨⟨cs, incoming⟩, rfl, hrest⟩
  | nil =>
      obtain ⟨bs, ds, hrefill, hrest⟩ := refill_arriving h
      exact ⟨⟨bs, ds⟩, by simp [rioRead, hrefill], hrest⟩

theorem readChars_arriving {k : Nat} (h : rp.arriving = line ++ 10 :: rest) (hline : 10 ∉ line)
    (hk : line.length < k) :
    ∃ rp', readChars k rp = (line ++ [10], true, rp') ∧ rp'.arriving = rest := by
  induction line generalizing rp k with
  | nil =>
      obtain ⟨k, rfl⟩ := Nat.exists_eq_succ_of_ne_zero (Nat.ne_of_gt hk)
      obtain ⟨rp', hread, hrest⟩ := rioRead_arriving h
      exact ⟨rp', by simp [readChars, hread], hrest⟩
  | cons c line ih =>
      obtain ⟨k, rfl⟩ := Nat.exists_eq_succ_of_ne_zero (Nat.ne_of_gt (Nat.zero_lt_of_lt hk))
      obtain ⟨hc, hline⟩ := not_or.mp (mt List.mem_cons.mpr hline)
      obtain ⟨rp₁, hread, hrest⟩ := rioRead_arriving h
      obtain ⟨rp', hchars, hrest'⟩ := ih hrest hline (Nat.lt_of_succ_lt_succ hk)
      refine ⟨rp', ?_, hrest'⟩
      simp [readChars, hread, Ne.symm hc, hchars]

theorem lines_arriving (h : rp.arriving = line ++ 10 :: rest) (hline : 10 ∉ line)
    (hlen : (line ++ [10]).length ≤ maxline - 1) :
    ∃ rp' : Rio, rp.lines = .bytes (line ++ [10]) ⟨by simp, hlen⟩ :: rp'.lines ∧
      rp'.arriving = rest := by
  have hk : line.length < maxline - 1 := by
    rwa [List.length_append] at hlen
  obtain ⟨rp', hread, hrest⟩ := readChars_arriving h hline hk
  exact ⟨rp', lines_of_some (resultOf_bytes hread _), hrest⟩

end CsappLabs.Proxy
