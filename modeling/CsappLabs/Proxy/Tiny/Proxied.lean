import CsappLabs.Proxy.Request.Headers
import CsappLabs.Proxy.Tiny.Requests

/-!
# Tiny behind the proxy

The proxy writes a request line and a header of its own, and relays what comes
back.  Since Tiny answers for the path only, the client gets what it would have
got without the proxy.
-/

namespace CsappLabs.Proxy.Tiny

open CsappLabs.Foundation Cache
open CsappLabs.Proxy.Request (Line Env Event HeaderLine block builtRequest requestLine defaults
  unlessSent flagsOf hostLine HostFits currentVersion wrongVersion modifiedVersion processRequest
  crlf)

/-- What the server sends on the connection is what Tiny answers to the request. -/
def AnsweredBy (site : Site) (request : List UInt8) (origin : List Delivery) : Prop :=
  Delivery.reset ∉ origin ∧ ∃ f inner, Delivery.reset ∉ inner ∧
    inner.flatMap Delivery.data = request ∧
    origin.flatMap Delivery.data = (doit site f request.length inner).bytes

structure Browses (f : Request.Frame) (client : List Delivery) (method : List UInt8)
    (hostname port path version : CString) (lines : List HeaderLine) (rest : List UInt8) :
    Prop where
  clean : Delivery.reset ∉ client
  asks : Asks (client.flatMap Delivery.data)
    (chars "http://" ++ (hostname.bytes ++ 58 :: (port.bytes ++ path.bytes)))
    (block lines ++ rest) method version.bytes
  hostChars : 58 ∉ hostname.bytes ∧ 47 ∉ hostname.bytes
  portChars : 58 ∉ port.bytes ∧ 47 ∉ port.bytes
  slash : path.bytes.head? = some 47
  current : ¬wrongVersion version
  ended : Request.Ended f hostname.bytes port.bytes
  noNul : ∀ l ∈ lines, 0 ∉ l.text
  fits : (builtRequest path version hostname lines).length < maxObjectSize

variable {site : Site} {env : Env} {f : Request.Frame} {s s' : State} {rp : Rio}
  {buf version : Line} {client origin : List Delivery} {method rest header text : List UInt8}
  {hostname port path v w : CString} {lines : List HeaderLine} {fuel : Nat}

/-! ## Reading the request -/

theorem arrivingFrom_clean {ds : List Delivery} (h : Delivery.reset ∉ ds) :
    arrivingFrom ds = ds.flatMap Delivery.data := by
  induction ds with
  | nil => rfl
  | cons d ds ih =>
      simp only [List.mem_cons, not_or] at h
      cases d with
      | bytes b bs => simp [arrivingFrom, Delivery.data, ih h.2]
      | interrupted => simp [arrivingFrom, Delivery.data, ih h.2]
      | reset => exact absurd rfl h.1

theorem arriving_clean (h : rp.Clean) : rp.arriving = rp.stream := by
  rw [Rio.arriving, Rio.stream, arrivingFrom_clean h]

/-- The version that is passed on is the client's or the current one. -/
theorem modifiedVersion_str (hstr : version.str 0 = some v) (hok : ¬wrongVersion v) :
    ∃ version' w, modifiedVersion version v = some version' ∧ version'.str 0 = some w ∧
      (w = v ∨ w.bytes = currentVersion ∧ currentVersion.length ≤ v.bytes.length) := by
  by_cases hsame : sameLetters v.bytes currentVersion = true
  · exact ⟨version, v, by simp [modifiedVersion, hsame], hstr, .inl rfl⟩
  · have hlong : 8 ≤ v.bytes.length := by
      simp only [wrongVersion, hsame, CString.strlen] at hok
      simp at hok
      omega
    obtain ⟨behind, hbytes⟩ := Buffer.str_zero hstr
    have hsize := version.length_eq
    rw [hbytes, List.length_append, List.length_cons] at hsize
    have hcurrent : currentVersion.length = 8 := by decide
    obtain ⟨zeroed, hzeroed, hzeros⟩ := version.store_eq
      (show (List.replicate v.strlen (0 : UInt8)).length ≤ maxline by
        rw [List.length_replicate, CString.strlen]; omega)
    obtain ⟨version', hversion, hcurrent'⟩ := zeroed.store_eq
      (show currentVersion.length ≤ maxline by rw [hcurrent]; decide)
    have hnul : 0 ∉ currentVersion := by decide
    have hend : ∃ behind', version'.bytes = [] ++ (currentVersion ++ 0 :: behind') := by
      have hn : v.strlen = v.bytes.length := rfl
      have hcut : List.replicate v.bytes.length (0 : UInt8) =
          List.replicate 8 0 ++ List.replicate (v.bytes.length - 8) 0 := by
        rw [List.replicate_append_replicate]
        congr 1
        omega
      rw [hcurrent', hzeros, hbytes, hcurrent, hn, List.length_replicate, List.drop_left, hcut,
        List.append_assoc, List.drop_left' (by simp)]
      cases hrest : v.bytes.length - 8 with
      | zero => exact ⟨behind, rfl⟩
      | succ m => exact ⟨_, rfl⟩
    obtain ⟨behind', hend⟩ := hend
    refine ⟨version', ⟨currentVersion, hnul⟩, ?_, Buffer.str_append hend hnul,
      .inr ⟨rfl, by rw [hcurrent]; exact hlong⟩⟩
    simp only [modifiedVersion, hsame, hzeroed, hversion, bind, Option.bind_some]
    rfl

/-! ## The request that the proxy writes -/

theorem EndsLine.append {pre pre' : List UInt8} (h : EndsLine pre) (h' : EndsLine pre') :
    EndsLine (pre ++ pre') := by
  by_cases hnil : pre' = []
  · rwa [hnil, List.append_nil]
  · intro b hb
    rw [List.getLast?_append_of_ne_nil _ hnil] at hb
    exact h' b hb

theorem EndsLine.crlf (text : List UInt8) : EndsLine (text ++ Request.crlf) := by
  intro b hb
  have hlast : (text ++ Request.crlf).getLast? = some 10 := by simp [Request.crlf]
  rw [hlast] at hb
  exact (Option.some.inj hb).symm

theorem EndsLine.unlessSent {sent : Bool} (h : EndsLine text) :
    EndsLine (Request.unlessSent sent text) := by
  cases sent with
  | false => exact h
  | true => nofun

theorem EndsLine.headerLines (lines : List HeaderLine) :
    EndsLine (lines.map HeaderLine.line).flatten := by
  induction lines with
  | nil => nofun
  | cons l lines ih => exact (EndsLine.crlf l.text).append ih

namespace Browses

theorem readRequest (h : Browses f client method hostname port path v lines rest) :
    ∃ r rp m url, Request.readRequest f client = .ok (.line r rp) ∧
      r.method.str 0 = some m ∧ m.bytes = method ∧ r.url.str 0 = some url ∧
      Request.UrlParts url hostname.bytes port.bytes path.bytes.tail ∧
      r.version.str 0 = some v ∧ rp.arriving = block lines ++ rest := by
  have hasks := h.asks
  obtain ⟨rp, buf, text, hread, hstore, hstr, hbytes, hrest, hclean⟩ :=
    hasks.readline h.clean f.buf
  obtain ⟨r, hscan, hm, hu, hv⟩ := scanWords_text f.method f.url f.version hasks.methodWord
    hasks.pathWord hasks.versionWord hasks.fits
  have hpos : (requestText method (chars "http://" ++ (hostname.bytes ++
      58 :: (port.bytes ++ path.bytes))) v.bytes).length ≠ 0 :=
    mt List.length_eq_zero_iff.mp requestText_ne_nil
  have hblank : requestText method
      (chars "http://" ++ (hostname.bytes ++ 58 :: (port.bytes ++ path.bytes))) v.bytes ≠ crlf := by
    intro heq
    obtain ⟨c, m, rfl⟩ := List.exists_cons_of_ne_nil hasks.methodWord.1
    have hc : c = 13 := (List.cons.inj heq).1
    have hspace := (hasks.methodWord.2 c List.mem_cons_self).1
    rw [hc] at hspace
    exact absurd hspace (by decide)
  obtain ⟨U, hpath⟩ := List.head?_eq_some_iff.mp h.slash
  refine ⟨r, rp, _, _, ?_, hm, rfl, hu,
    ⟨?_, h.hostChars, h.portChars⟩, hv, (arriving_clean hclean).trans hrest⟩
  · simp only [Request.readRequest, hread, Option.some.injEq, if_neg hpos, hstore, hstr,
      hbytes, if_neg hblank, Request.scanRequest, hscan, Request.orFault, bind, Except.bind]
  · simp only [hpath, List.tail_cons]

theorem prepare (h : Browses f client method hostname port path v lines rest) {url version : Line}
    {u w : CString} (hurl : url.str 0 = some u)
    (hparts : Request.UrlParts u hostname.bytes port.bytes path.bytes.tail)
    (hversion : version.str 0 = some w) (hshort : w.bytes.length ≤ v.bytes.length)
    (harrive : rp.arriving = block lines ++ rest) :
    Request.prepare f rp url version =
      .ok (some (makeTheKey hostname port path, builtRequest path w hostname lines)) := by
  obtain ⟨t, ht, hreadHost, hreadPort, hreadUri⟩ :=
    (Request.readsBack_iff f hparts hurl).mpr h.ended
  obtain ⟨U, hpath⟩ := List.head?_eq_some_iff.mp h.slash
  rw [hpath, List.tail_cons, ← hpath] at hreadUri
  obtain ⟨host', hhost, hsame⟩ := Option.map_eq_some_iff.mp hreadHost
  obtain ⟨port', hport, hsame'⟩ := Option.map_eq_some_iff.mp hreadPort
  obtain ⟨path', huri, hsame''⟩ := Option.map_eq_some_iff.mp hreadUri
  obtain rfl : host' = hostname := by rw [CString.mk.injEq]; exact hsame
  obtain rfl : port' = port := by rw [CString.mk.injEq]; exact hsame'
  obtain rfl : path' = path := by rw [CString.mk.injEq]; exact hsame''
  have hline := h.asks.fits
  simp only [requestText, List.length_append, List.length_cons] at hline
  have hfits : HostFits (flagsOf lines) host' := by
    right
    have hname : (chars "Host: ").length = 6 := by decide
    have hscheme : (chars "http://").length = 7 := by decide
    have hcrlf : crlf.length = 2 := rfl
    have hmax : maxline = 8192 := rfl
    simp only [hostLine, List.length_append, hname, hcrlf]
    omega
  have hsize : (builtRequest path' w host' lines).length < maxObjectSize := by
    have hv := h.fits
    simp only [builtRequest, requestLine, List.length_append] at hv ⊢
    omega
  have hbuilt := (Request.changeRequest_block harrive f.headerBuf _).mpr ⟨hfits, hsize, rfl⟩
  simp only [Request.prepare, ht, hversion, huri, hhost, hport, Request.orFault, bind, Except.bind,
    hbuilt]

theorem processRequest (h : Browses f client method hostname port path v lines rest) (env : Env)
    (s : State) :
    ∃ w, (w = v ∨ w.bytes = currentVersion ∧ currentVersion.length ≤ v.bytes.length) ∧
      processRequest env f s client = Request.answer env f s (makeTheKey hostname port path)
        (builtRequest path w hostname lines) := by
  obtain ⟨r, rp, m, url, hread, hm, hmethod, hurl, hparts, hv, harrive⟩ := h.readRequest
  obtain ⟨version, w, hmodified, hversion, hw⟩ := modifiedVersion_str hv h.current
  have hshort : w.bytes.length ≤ v.bytes.length := by
    rcases hw with rfl | ⟨hcurrent, hle⟩
    · exact Nat.le_refl _
    · rwa [hcurrent]
  have hget : sameLetters m.bytes (chars "GET") := hmethod ▸ h.asks.get
  have hprepare := h.prepare hurl hparts hversion hshort harrive
  refine ⟨w, hw, ?_⟩
  simp only [Request.processRequest, hread, hm, hurl, hv, hget, not_true_eq_false, if_false,
    Request.modifyThenServe, hmodified, h.current, Request.serve, hprepare, Bool.false_eq_true]

end Browses

end CsappLabs.Proxy.Tiny
