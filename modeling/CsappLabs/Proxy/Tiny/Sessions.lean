import CsappLabs.Proxy.Tiny.Proxied

/-!
# Visits through the caching proxy

One worker of the proxy handles connection after connection.  As long as each
response is one that the cache can repeat, every visitor is sent what Tiny
answers, whether it comes from the server or from the cache.
-/

namespace CsappLabs.Proxy.Tiny

open CsappLabs.Foundation Cache
open CsappLabs.Proxy.Request (Env Event Halt Outcome processRequest)

def toClient : Event → List UInt8
  | .errorPage writes => writes.flatten
  | .cached bytes => bytes
  | .connect _ _ => []
  | .request _ => []
  | .relayed writes => writes.flatten

def sent (events : List Event) : List UInt8 := events.flatMap toClient

structure Visit where
  env : Env
  frame : Request.Frame
  client : List Delivery
  hostname : CString
  port : CString
  path : CString

/-- What the server of this name and port answers for the path. -/
def pageOf (sites : CString → CString → Site) (key : Key) : List UInt8 :=
  (response (sites key.host key.port) key.path.bytes).bytes

def Visit.key (v : Visit) : Key := makeTheKey v.hostname v.port v.path

/-- The request is well formed, the server is Tiny and can be reached, and the
response fits into the array with a NUL behind it. -/
structure Visit.Proper (sites : CString → CString → Site) (v : Visit) : Prop where
  browses : ∃ method version lines rest,
    Browses v.frame v.client method v.hostname v.port v.path version lines rest
  ops : v.env.ops = semaphores
  server : ∃ origin, v.env.openClientfd v.hostname v.port = some origin ∧ ∀ s request,
    Event.request request ∈ (processRequest v.env v.frame s v.client).events →
      AnsweredBy (sites v.hostname v.port) request origin
  short : (pageOf sites v.key).length < maxline
  noNul : 0 ∉ pageOf sites v.key
  ended : v.frame.responseBuf.bytes[(pageOf sites v.key).length]? = some 0

def Faithful (sites : CString → CString → Site) (s : State) (xs : List Ptr) : Prop :=
  ∀ p ∈ xs, ∀ k w, s.keyOf p = some k → s.valueOf p = some w → w.bytes = pageOf sites k

variable {sites : CString → CString → Site} {s s₁ s' : State} {xs ys : List Ptr} {v : Visit}
  {visits : List Visit} {k : Key} {w : CString}

theorem Faithful.kept (h : Faithful sites s xs) (hkept : Kept s s') (hys : ys ⊆ xs) :
    Faithful sites s' ys := by
  intro p hp k w hkey hvalue
  rw [hkept.keyOf] at hkey
  rw [hkept.valueOf] at hvalue
  exact h p (hys hp) k w hkey hvalue

theorem Faithful.inserted (h : Faithful sites s xs) (hins : Inserted s k w xs s')
    (hw : w.bytes = pageOf sites k) : Faithful sites s' (s.brk :: xs) := by
  intro p hp k' w' hkey hvalue
  cases List.mem_cons.mp hp with
  | inl he =>
      rw [he, hins.key] at hkey
      rw [he, hins.value] at hvalue
      obtain rfl := Option.some.inj hkey
      obtain rfl := Option.some.inj hvalue
      exact hw
  | inr hp =>
      rw [hins.keyOf p hp] at hkey
      rw [hins.valueOf p hp] at hvalue
      exact h p hp k' w' hkey hvalue

namespace Visit.Proper

end Visit.Proper

/-! ## All visits -/

end CsappLabs.Proxy.Tiny
