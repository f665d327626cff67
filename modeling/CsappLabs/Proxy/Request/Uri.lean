import CsappLabs.Proxy.Request.Response

/-!
# The URL of a request

`parse_uri` copies the host and the port with `strncpy` and a count that leaves
out the terminator.  It takes for granted that the token has seven characters
and behind them a colon in front of the first slash.
-/

namespace CsappLabs.Proxy.Request

open CsappLabs.Foundation Cache

variable {f f' : Frame} {url url' : Line} {u : CString} {H P U tok : List UInt8}

/-! ## Well-formed URLs -/

theorem str_of_unterminated {size : Nat} {buf old : Buffer size} {word : List UInt8}
    (h : buf.bytes = word ++ old.bytes.drop word.length) (hword : 0 ∉ word)
    (hlen : word.length < size) :
    (buf.str 0).map CString.bytes = some word ↔ old.bytes[word.length]? = some 0 := by
  have hlt : word.length < old.bytes.length := by rwa [old.length_eq]
  have hdrop := List.drop_eq_getElem_cons hlt
  rw [List.getElem?_eq_getElem hlt, Option.some.injEq]
  constructor
  · intro hread
    obtain ⟨s, hs, hbytes⟩ := Option.map_eq_some_iff.mp hread
    obtain ⟨rest, hrest⟩ := Buffer.str_zero hs
    rw [h, hbytes, hdrop] at hrest
    exact (List.cons.inj (List.append_cancel_left hrest)).1
  · intro hzero
    rw [hzero] at hdrop
    have hstr : buf.bytes = [] ++ (word ++ 0 :: old.bytes.drop (word.length + 1)) := by
      rw [h, hdrop, List.nil_append]
    have hread := Buffer.str_append hstr hword
    rw [List.length_nil] at hread
    rw [hread]
    rfl

/-- `http://` H `:` P `/` U -/
structure UrlParts (u : CString) (H P U : List UInt8) : Prop where
  eq : u.bytes = chars "http://" ++ (H ++ 58 :: (P ++ 47 :: U))
  host : 58 ∉ H ∧ 47 ∉ H
  port : 58 ∉ P ∧ 47 ∉ P

theorem UrlParts.noNul (h : UrlParts u H P U) : 0 ∉ H ∧ 0 ∉ P ∧ 0 ∉ U := by
  have hnul := u.noNul
  rw [h.eq] at hnul
  simp only [List.mem_append, List.mem_cons, not_or] at hnul
  exact ⟨hnul.2.1, hnul.2.2.2.1, hnul.2.2.2.2.2⟩

theorem length_lt (hurl : url.str 0 = some u) : u.strlen < maxline := by
  obtain ⟨rest, hbytes⟩ := Buffer.str_zero hurl
  have hlen := url.length_eq
  rw [hbytes, List.length_append, List.length_cons] at hlen
  rw [CString.strlen]
  omega

theorem strstr_parts (hc : 58 ∉ H) (hs : 47 ∉ H) (hs' : 47 ∉ P) (U : List UInt8) :
    strstr (chars ":") (H ++ 58 :: (P ++ 47 :: U)) = some H.length ∧
      strstr (chars "/") (H ++ 58 :: (P ++ 47 :: U)) = some (H.length + 1 + P.length) := by
  have hbefore : 47 ∉ H ++ 58 :: P := by
    simp only [List.mem_append, List.mem_cons, not_or]
    exact ⟨hs, by decide, hs'⟩
  have hfound := strstr_one hbefore U
  rw [List.append_assoc, List.cons_append, List.length_append, List.length_cons] at hfound
  refine ⟨strstr_one hc _, hfound.trans ?_⟩
  congr 1
  omega

theorem parseUri_parts (f : Frame) (h : UrlParts u H P U) (hurl : url.str 0 = some u) :
    ∃ t, parseUri f url = some t ∧
      t.hostname.bytes = H ++ f.hostname.bytes.drop H.length ∧
      t.port.bytes = P ++ f.port.bytes.drop P.length ∧
      (t.uri.str 0).map CString.bytes = some (47 :: U) := by
  obtain ⟨hH, hP, hU⟩ := h.noNul
  obtain ⟨rest, hbytes⟩ := Buffer.str_zero hurl
  have hlen := length_lt hurl
  rw [CString.strlen, h.eq] at hlen
  simp only [List.length_append, List.length_cons] at hlen
  have hnul : 0 ∉ H ++ 58 :: (P ++ 47 :: U) := by
    simp only [List.mem_append, List.mem_cons, not_or]
    exact ⟨hH, by decide, hP, by decide, hU⟩
  have hbehind : url.str (chars "http://").length = some ⟨_, hnul⟩ := by
    have hcut : url.bytes = chars "http://" ++ (H ++ 58 :: (P ++ 47 :: U) ++ 0 :: rest) := by
      rw [hbytes, h.eq, List.append_assoc]
    exact Buffer.str_append hcut hnul
  obtain ⟨hcolon, hslash⟩ := strstr_parts h.host.1 h.host.2 h.port.2 U
  have hdropUri : (H ++ 58 :: (P ++ 47 :: U)).drop (H.length + 1 + P.length) = 47 :: U := by
    have hcut : H ++ 58 :: (P ++ 47 :: U) = (H ++ 58 :: P) ++ 47 :: U := by simp
    rw [hcut]
    exact List.drop_left' (by rw [List.length_append, List.length_cons]; omega)
  have htakeHost : (H ++ 58 :: (P ++ 47 :: U)).take H.length = H := List.take_left
  have htakePort : ((H ++ 58 :: (P ++ 47 :: U)).drop (H.length + 1)).take
      (H.length + 1 + P.length - H.length - 1) = P := by
    have hdrop : (H ++ 58 :: (P ++ 47 :: U)).drop (H.length + 1) = P ++ 47 :: U := by
      rw [← List.drop_drop, List.drop_left]
      rfl
    rw [hdrop]
    exact List.take_left' (by omega)
  obtain ⟨uri, huri, huriBytes⟩ := f.uri.store_eq
    (show (47 :: U ++ [0]).length ≤ maxline by simp; omega)
  obtain ⟨hostname, hhost, hhostBytes⟩ := f.hostname.store_eq (show H.length ≤ maxline by omega)
  obtain ⟨port, hport, hportBytes⟩ := f.port.store_eq (show P.length ≤ maxline by omega)
  refine ⟨⟨uri, hostname, port⟩, ?_, hhostBytes, hportBytes, ?_⟩
  · have hge : ¬H.length + 1 + P.length < H.length + 1 := by omega
    simp only [parseUri, hbehind, hcolon, hslash, if_neg hge, hdropUri, htakeHost, htakePort, huri,
      hhost, hport, bind, Option.bind_some]
  · have hstart : uri.bytes = [] ++ (47 :: U ++ 0 :: f.uri.bytes.drop (47 :: U ++ [0]).length) := by
      rw [huriBytes]
      simp
    have hread := Buffer.str_append hstart (List.not_mem_cons_of_ne_of_not_mem (by decide) hU)
    rw [List.length_nil] at hread
    rw [hread]
    rfl

/-- The old arrays end the host and the port. -/
def Ended (f : Frame) (H P : List UInt8) : Prop :=
  f.hostname.bytes[H.length]? = some 0 ∧ f.port.bytes[P.length]? = some 0

def uriKey (f : Frame) (url : Line) : Option Key := do
  let t ← parseUri f url
  some (makeTheKey (← t.hostname.str 0) (← t.port.str 0) (← t.uri.str 0))

def ReadsBack (f : Frame) (url : Line) (H P U : List UInt8) : Prop :=
  ∃ t, parseUri f url = some t ∧ (t.hostname.str 0).map CString.bytes = some H ∧
    (t.port.str 0).map CString.bytes = some P ∧ (t.uri.str 0).map CString.bytes = some (47 :: U)

theorem readsBack_iff (f : Frame) (h : UrlParts u H P U) (hurl : url.str 0 = some u) :
    ReadsBack f url H P U ↔ Ended f H P := by
  obtain ⟨t, ht, hhost, hport, huri⟩ := parseUri_parts f h hurl
  obtain ⟨hH, hP, -⟩ := h.noNul
  have hlen := length_lt hurl
  rw [CString.strlen, h.eq] at hlen
  simp only [List.length_append, List.length_cons] at hlen
  have hhostIff := str_of_unterminated hhost hH (by omega)
  have hportIff := str_of_unterminated hport hP (by omega)
  rw [Ended, ← hhostIff, ← hportIff]
  constructor
  · rintro ⟨t', ht', hhost', hport', -⟩
    rw [ht] at ht'
    cases ht'
    exact ⟨hhost', hport'⟩
  · rintro ⟨hhost', hport'⟩
    exact ⟨t, ht, hhost', hport', huri⟩

theorem ReadsBack.key (h : ReadsBack f url H P U) (hH : 0 ∉ H) (hP : 0 ∉ P) (hU : 0 ∉ 47 :: U) :
    uriKey f url = some (makeTheKey ⟨H, hH⟩ ⟨P, hP⟩ ⟨47 :: U, hU⟩) := by
  obtain ⟨t, ht, hhost, hport, huri⟩ := h
  obtain ⟨host, hhost', rfl⟩ := Option.map_eq_some_iff.mp hhost
  obtain ⟨port, hport', rfl⟩ := Option.map_eq_some_iff.mp hport
  obtain ⟨uri, huri', hpath⟩ := Option.map_eq_some_iff.mp huri
  have hsame : (⟨47 :: U, hU⟩ : CString) = uri := by
    rw [CString.mk.injEq]
    exact hpath.symm
  rw [hsame]
  simp only [uriKey, ht, hhost', hport', huri', bind, Option.bind_some]

/-- The host, the port and the path are read back, if and only if the old
arrays have a NUL where the host and the port end.  Then equal URLs have equal
keys. -/
theorem parts_read_back_iff (f : Frame) (h : UrlParts u H P U) (hurl : url.str 0 = some u) :
    (ReadsBack f url H P U ↔ Ended f H P) ∧
      ∀ f' url', url'.str 0 = some u → Ended f H P → Ended f' H P →
        ∃ key, uriKey f url = some key ∧ uriKey f' url' = some key := by
  refine ⟨readsBack_iff f h hurl, fun f' url' hurl' hended hended' => ?_⟩
  obtain ⟨hH, hP, hU⟩ := h.noNul
  have hpath : 0 ∉ 47 :: U := List.not_mem_cons_of_ne_of_not_mem (by decide) hU
  have hread := (readsBack_iff f h hurl).mpr hended
  have hread' := (readsBack_iff f' h hurl').mpr hended'
  exact ⟨_, hread.key hH hP hpath, hread'.key hH hP hpath⟩

def holding (text : List UInt8) : Line :=
  ⟨(text ++ List.replicate maxline 0).take maxline, by simp⟩

def frameOf (hostname port : List UInt8) : Frame :=
  ⟨zeros, zeros, zeros, zeros, zeros, holding hostname, holding port, zeros, zeros, [0]⟩

theorem parts_read_back_iff_short :
    (ReadsBack (frameOf [] []) (holding (chars "http://h:80/x")) (chars "h") (chars "80")
        (chars "x") ↔ Ended (frameOf [] []) (chars "h") (chars "80")) ∧
      ∀ f' url', url'.str 0 = some ⟨chars "http://h:80/x", by decide⟩ →
        Ended (frameOf [] []) (chars "h") (chars "80") → Ended f' (chars "h") (chars "80") →
          ∃ key, uriKey (frameOf [] []) (holding (chars "http://h:80/x")) = some key ∧
            uriKey f' url' = some key :=
  parts_read_back_iff _ ⟨by decide, by decide, by decide⟩ (by decide)

/-- After a request for the host `localhost` the host `h` becomes `hocalhost`. -/
theorem old_host_stays :
    ¬∀ f url u H P U, UrlParts u H P U → url.str 0 = some u → ReadsBack f url H P U := by
  intro hall
  have hparts : UrlParts ⟨chars "http://h:80/x", by decide⟩ (chars "h") (chars "80") (chars "x") :=
    ⟨by decide, by decide, by decide⟩
  have hread := hall (frameOf (chars "localhost") (chars "80"))
    (holding (chars "http://h:80/x")) _ _ _ _ hparts (by decide)
  have hhost : (parseUri (frameOf (chars "localhost") (chars "80"))
      (holding (chars "http://h:80/x"))).bind (fun t => (t.hostname.str 0).map CString.bytes) =
        some (chars "hocalhost") := by
    decide
  obtain ⟨t, ht, hhost', -⟩ := hread
  rw [ht, Option.bind_some, hhost'] at hhost
  exact absurd hhost (by decide)

/-! ## Any token -/

/-- What `parse_uri` makes of a token, as a string of its own: `no_prefix` is
not behind the terminator, no pointer is null, and the three counts are in
range. -/
def SafeCall (tok : List UInt8) : Prop :=
  (chars "http://").length ≤ tok.length ∧
    ∃ colon slash, strstr (chars ":") (tok.drop (chars "http://").length) = some colon ∧
      strstr (chars "/") (tok.drop (chars "http://").length) = some slash ∧
      (tok.drop ((chars "http://").length + slash)).length + 1 ≤ maxline - 1 ∧
      colon ≤ maxline - 1 ∧ colon + 1 ≤ slash ∧ slash - colon - 1 ≤ maxline - 1

/-- Seven characters, and behind them a colon in front of the first slash. -/
def ColonFirst (tok : List UInt8) : Prop :=
  ∃ skipped host port path, tok = skipped ++ (host ++ 58 :: (port ++ 47 :: path)) ∧
    skipped.length = 7 ∧ 58 ∉ host ∧ 47 ∉ host ∧ 47 ∉ port

theorem safeCall_iff (hlen : tok.length < maxline) : SafeCall tok ↔ ColonFirst tok := by
  have hseven : (chars "http://").length = 7 := by decide
  have hmax : maxline = 8192 := rfl
  have hcolonChar : chars ":" = [58] := by decide
  have hslashChar : chars "/" = [47] := by decide
  rw [SafeCall, hseven]
  constructor
  · rintro ⟨hbehind, colon, slash, hcolon, hslash, -, -, horder, -⟩
    rw [hcolonChar] at hcolon
    rw [hslashChar] at hslash
    obtain ⟨host, rest, hhost, hc, rfl⟩ := strstr_one_some hcolon
    obtain ⟨before, path, hpath, hs, rfl⟩ := strstr_one_some hslash
    have hcut : (host ++ [58]) ++ rest = before ++ 47 :: path := by
      rw [← hpath, hhost, List.append_assoc]
      rfl
    -- the colon lies in front of the slash
    obtain ⟨port, rfl, -⟩ : ∃ port, before = host ++ [58] ++ port ∧ rest = port ++ 47 :: path := by
      rcases List.append_eq_append_iff.mp hcut with hport | ⟨bs, hbs, hrest⟩
      · exact hport
      · have hnil : bs = [] := by
          have hlengths := congrArg List.length hbs
          rw [List.length_append, List.length_append, List.length_singleton] at hlengths
          exact List.eq_nil_of_length_eq_zero (by omega)
        subst hnil
        exact ⟨[], by simpa using hbs.symm, hrest.symm⟩
    simp only [List.mem_append, not_or] at hs
    refine ⟨tok.take 7, host, port, path, ?_, List.length_take_of_le hbehind, hc, hs.1.1, hs.2⟩
    refine (List.take_append_drop 7 tok).symm.trans ?_
    rw [hpath]
    simp
  · rintro ⟨skipped, host, port, path, rfl, hskipped, hc, hs, hs'⟩
    obtain ⟨hcolon, hslash⟩ := strstr_parts hc hs hs' path
    simp only [List.length_append, List.length_cons] at hlen
    have hdrop : (skipped ++ (host ++ 58 :: (port ++ 47 :: path))).drop 7 =
        host ++ 58 :: (port ++ 47 :: path) := List.drop_left' hskipped
    refine ⟨by rw [List.length_append]; omega, host.length, host.length + 1 + port.length, ?_, ?_,
      ?_, by omega, by omega, by omega⟩
    · rw [hdrop, hcolon]
    · rw [hdrop, hslash]
    · simp only [List.length_drop, List.length_append, List.length_cons]
      omega

/-- The model of `parse_uri` faults exactly where the call is not safe, for
tokens that have the characters to be skipped. -/
theorem parseUri_isSome_iff (f : Frame) (hurl : url.str 0 = some u) (hskip : 7 ≤ u.strlen) :
    (parseUri f url).isSome ↔ SafeCall u.bytes := by
  have hseven : (chars "http://").length = 7 := by decide
  have hmax : maxline = 8192 := rfl
  have hlen := length_lt hurl
  obtain ⟨rest, hbytes⟩ := Buffer.str_zero hurl
  have hnul : 0 ∉ u.bytes.drop 7 := fun h => u.noNul (List.mem_of_mem_drop h)
  have hcut : url.bytes = u.bytes.take 7 ++ (u.bytes.drop 7 ++ 0 :: rest) := by
    rw [hbytes, ← List.append_assoc, List.take_append_drop]
  have hbehind : url.str 7 = some ⟨u.bytes.drop 7, hnul⟩ := by
    have hread := Buffer.str_append hcut hnul
    rwa [List.length_take_of_le hskip] at hread
  rw [SafeCall, hseven]
  constructor
  · intro hsome
    obtain ⟨t, ht⟩ := Option.isSome_iff_exists.mp hsome
    rw [parseUri, hseven, hbehind] at ht
    obtain ⟨noPrefix, hno, hparse⟩ := Option.bind_eq_some_iff.mp ht
    cases hno
    obtain ⟨colon, hcolon, hrest⟩ := Option.bind_eq_some_iff.mp hparse
    obtain ⟨slash, hslash, hstores⟩ := Option.bind_eq_some_iff.mp hrest
    have horder : ¬slash < colon + 1 := by
      intro hlt
      rw [if_pos hlt] at hstores
      cases hstores
    obtain ⟨before, path, hdrop, -, rfl⟩ := strstr_one_some (show strstr [47] _ = some slash from hslash)
    have hbound := congrArg List.length hdrop
    rw [List.length_drop, List.length_append, List.length_cons] at hbound
    rw [CString.strlen] at hlen hskip
    refine ⟨hskip, colon, _, hcolon, hslash, ?_, by omega, by omega, by omega⟩
    rw [List.length_drop]
    omega
  · rintro ⟨-, colon, slash, hcolon, hslash, huri, hhost, horder, hport⟩
    have huriFits : ((u.bytes.drop 7).drop slash ++ [0]).length ≤ maxline := by
      rw [List.drop_drop, List.length_append, List.length_singleton]
      omega
    have hhostFits : ((u.bytes.drop 7).take colon).length ≤ maxline :=
      Nat.le_trans (List.length_take_le _ _) (by omega)
    have hportFits : (((u.bytes.drop 7).drop (colon + 1)).take (slash - colon - 1)).length ≤ maxline :=
      Nat.le_trans (List.length_take_le _ _) (by omega)
    obtain ⟨uri, huri', -⟩ := f.uri.store_eq huriFits
    obtain ⟨hostname, hhost', -⟩ := f.hostname.store_eq hhostFits
    obtain ⟨port, hport', -⟩ := f.port.store_eq hportFits
    have hge : ¬slash < colon + 1 := by omega
    simp only [parseUri, hseven, hbehind, hcolon, hslash, if_neg hge, huri', hhost', hport', bind,
      Option.bind_some, Option.isSome_some]

theorem fault_of_not_safe {env : Env} {s : State} {client : List Delivery} {r : RequestLine}
    {rp : Rio} {method v : CString} (hread : readRequest f client = .ok (.line r rp))
    (hm : r.method.str 0 = some method) (hu : r.url.str 0 = some u) (hv : r.version.str 0 = some v)
    (hget : sameLetters method.bytes (chars "GET")) (hskip : 7 ≤ u.strlen)
    (h : ¬SafeCall u.bytes) : (processRequest env f s client).result = .error (.stop .fault) := by
  have hnone : parseUri f r.url = none := by
    rw [← Option.not_isSome_iff_eq_none]
    exact mt (parseUri_isSome_iff f hu hskip).mp h
  have hserve : ∀ version, serve env f s rp r.url version = ⟨[], .error (.stop .fault)⟩ := by
    intro version
    rw [serve, prepare, hnone]
    rfl
  have hmodify : modifyThenServe env f s r rp v = if wrongVersion v then
      replyThen (replyClientError r.method (chars "501") (chars "Not Implemented")
        (chars "Wrong Version Format")) ⟨[], .error (.stop .fault)⟩
      else ⟨[], .error (.stop .fault)⟩ := by
    rw [modifyThenServe]
    cases modifiedVersion r.version v with
    | none => rfl
    | some version => simp only [hserve]
  have hshort : (chars "501").length + (chars "Not Implemented").length ≤ 100 := by decide
  obtain ⟨writes, hwrites, -⟩ := replyClientError_of_fits (pageFits_of_get hm hget) hshort
  simp only [processRequest, hread, hm, hu, hv, hget, not_true_eq_false, if_false, hmodify]
  split
  · rw [hwrites]
    rfl
  · rfl

theorem page_iff {cause : Line} {errnum shortmsg longmsg : List UInt8}
    (hshort : errnum.length + shortmsg.length ≤ 100) (s : State) :
    (∃ page, IsErrorPage page ∧ (replyThen (replyClientError cause errnum shortmsg longmsg)
      ⟨[], .ok s⟩).events = [.errorPage page]) ↔ PageFits cause longmsg := by
  have hevents : ∀ page : List (List UInt8) × Except Stop Unit,
      (replyThen page ⟨[], .ok s⟩).events = [.errorPage page.1] := by
    rintro ⟨writes, result⟩
    cases result <;> rfl
  rw [hevents]
  constructor
  · rintro ⟨page, hpage, heq⟩
    cases heq
    by_contra hfits
    exact (replyClientError_of_overflow errnum shortmsg hfits).1 hpage
  · intro hfits
    obtain ⟨writes, heq, hpage⟩ := replyClientError_of_fits hfits hshort
    exact ⟨writes, hpage, by rw [heq]⟩

/-- A request line is answered with an error page, or with a safe call of
`parse_uri`. -/
def UriSafe (env : Env) (f : Frame) (s : State) (client : List Delivery) : Prop :=
  match readRequest f client with
  | .ok (.line r _) =>
      match r.method.str 0, r.url.str 0, r.version.str 0 with
      | some method, some tok, some _ =>
          if ¬sameLetters method.bytes (chars "GET") then
            ∃ page, IsErrorPage page ∧ (processRequest env f s client).events = [.errorPage page]
          else SafeCall tok.bytes
      | _, _, _ => False
  | _ => True

/-- The three arrays hold strings; a method other than `GET` fits into the
error page, and with `GET` the token has a colon where it is looked for. -/
def LineOk (f : Frame) (client : List Delivery) : Prop :=
  match readRequest f client with
  | .ok (.line r _) =>
      match r.method.str 0, r.url.str 0, r.version.str 0 with
      | some method, some tok, some _ =>
          if ¬sameLetters method.bytes (chars "GET") then method.strlen + 46 < maxline
          else ColonFirst tok.bytes
      | _, _, _ => False
  | _ => True

theorem uri_safe_iff (env : Env) (f : Frame) (s : State) (client : List Delivery) :
    UriSafe env f s client ↔ LineOk f client := by
  unfold UriSafe LineOk processRequest
  cases readRequest f client with
  | error e => exact Iff.rfl
  | ok first =>
      cases first with
      | ended => exact Iff.rfl
      | blank => exact Iff.rfl
      | line r rp =>
          dsimp only
          generalize hm : r.method.str 0 = method, hu : r.url.str 0 = url, r.version.str 0 = version
          match method, url, version, hm, hu with
          | none, _, _, _, _ => exact Iff.rfl
          | some _, none, _, _, _ => exact Iff.rfl
          | some _, some _, none, _, _ => exact Iff.rfl
          | some method, some tok, some v, hm, hu =>
              by_cases hget : sameLetters method.bytes (chars "GET")
              · simp only [hget, not_true_eq_false, if_false]
                exact safeCall_iff (length_lt hu)
              · simp only [hget]
                refine (page_iff (by decide) s).trans ⟨?_, fun hfits => ⟨method, hm, ?_⟩⟩
                · rintro ⟨c, hc, hfits⟩
                  cases hm.symm.trans hc
                  have hmsg : (chars "Tiny Does not implement this method").length = 35 := by decide
                  rw [hmsg] at hfits
                  show method.strlen + 46 < maxline
                  omega
                · have hmsg : (chars "Tiny Does not implement this method").length = 35 := by decide
                  rw [hmsg]
                  have hfits' : method.strlen + 46 < maxline := hfits
                  omega

theorem storeWord_str {buf buf' : Line} {word : List UInt8} (h : storeWord buf word = some buf')
    (hne : word ≠ []) (hnul : 0 ∉ word) : buf'.str 0 = some ⟨word, hnul⟩ := by
  rw [storeWord, if_neg hne] at h
  have hlen : (word ++ [0]).length ≤ maxline := by
    by_contra hlong
    rw [Buffer.store, dif_neg hlong] at h
    cases h
  obtain ⟨stored, hstored, hbytes⟩ := buf.store_eq hlen
  rw [hstored] at h
  cases h
  have hstart : buf'.bytes = [] ++ (word ++ 0 :: buf.bytes.drop (word ++ [0]).length) := by
    rw [hbytes]
    simp
  exact Buffer.str_append hstart hnul

theorem scanWord_subset (text : List UInt8) :
    (scanWord text).1 ⊆ text ∧ (scanWord text).2 ⊆ text := by
  have hspace := (List.dropWhile_sublist isspace (l := text)).subset
  exact ⟨fun _ h => hspace ((List.takeWhile_sublist _).subset h),
    fun _ h => hspace ((List.dropWhile_sublist _).subset h)⟩

theorem scanRequest_url {text : CString} {r : RequestLine} (h : scanRequest f text.bytes = some r)
    (hne : (scanWord (scanWord text.bytes).2).1 ≠ []) :
    (r.url.str 0).map CString.bytes = some (scanWord (scanWord text.bytes).2).1 := by
  have hnul : 0 ∉ (scanWord (scanWord text.bytes).2).1 := by
    intro hmem
    exact text.noNul ((scanWord_subset text.bytes).2 ((scanWord_subset _).1 hmem))
  obtain ⟨method, -, hrest⟩ := Option.bind_eq_some_iff.mp h
  obtain ⟨url, hurl, hrest⟩ := Option.bind_eq_some_iff.mp hrest
  obtain ⟨version, -, heq⟩ := Option.bind_eq_some_iff.mp hrest
  cases heq
  rw [storeWord_str hurl hne hnul]
  rfl

theorem readRequest_line {client : List Delivery} {r : RequestLine} {rp : Rio}
    (h : readRequest f client = .ok (.line r rp)) :
    ∃ text : CString, text.strlen < maxline ∧ scanRequest f text.bytes = some r := by
  unfold readRequest at h
  generalize rioReadlineb (rioReadinitb client) maxline = line at h
  obtain ⟨stored, n, rp'⟩ := line
  dsimp only at h
  split at h
  · cases h
  · cases hbuf : f.buf.store stored with
    | none =>
        rw [hbuf] at h
        cases h
    | some buf =>
        cases htext : buf.str 0 with
        | none =>
            simp only [hbuf, orFault, htext, bind, Except.bind] at h
            cases h
        | some text =>
            refine ⟨text, length_lt htext, ?_⟩
            simp only [hbuf, orFault, htext, bind, Except.bind] at h
            split at h
            · cases h
            · cases hscan : scanRequest f text.bytes with
              | none =>
                  rw [hscan] at h
                  cases h
              | some r' =>
                  rw [hscan] at h
                  cases h
                  rfl

/-- `http://example.com/` has no port, and no colon is found. -/
theorem url_without_port :
    ¬∀ env f s client, UriSafe env f s client := by
  intro hall
  have hsafe := hall ⟨semaphores, fun _ _ => some []⟩ (frameOf [] []) (initLRUCache fun _ => 1)
    [.bytes 71 (chars "ET http://example.com/ HTTP/1.0\r\n\r\n")]
  have hread : (match readRequest (frameOf [] [])
        [.bytes 71 (chars "ET http://example.com/ HTTP/1.0\r\n\r\n")] with
      | .ok (.line r _) => [r.method.str 0, r.url.str 0, r.version.str 0]
      | _ => []) = [some ⟨chars "GET", by decide⟩, some ⟨chars "http://example.com/", by decide⟩,
        some ⟨chars "HTTP/1.0", by decide⟩] := by
    decide
  unfold UriSafe at hsafe
  split at hread
  · rename_i r rp hline
    rw [hline] at hsafe
    simp only [List.cons.injEq, and_true] at hread
    simp only [hread.1, hread.2.1, hread.2.2] at hsafe
    rw [if_neg (by decide)] at hsafe
    obtain ⟨-, colon, -, hcolon, -⟩ := hsafe
    have hnone : strstr (chars ":") ((chars "http://example.com/").drop (chars "http://").length) =
        none := by
      decide
    cases hcolon.symm.trans hnone
  · cases hread

end CsappLabs.Proxy.Request
