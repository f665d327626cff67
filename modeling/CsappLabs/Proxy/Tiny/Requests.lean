import CsappLabs.Foundation.Scan
import CsappLabs.Proxy.Request.Uri
import CsappLabs.Proxy.Tiny.Header

/-!
# What Tiny answers

The response to a `GET` depends on its path only: not on how the request is
delivered, nor on what the arrays of `doit` hold before, nor on its header, as
long as the empty line comes.
-/

namespace CsappLabs.Proxy.Tiny

open CsappLabs.Foundation
open CsappLabs.Proxy.Request (Line crlf contains scanWords storeWord storeWord_str store_line)

structure Located where
  isStatic : Bool
  filename : List UInt8
  cgiargs : List UInt8
  deriving DecidableEq

def locate (path : List UInt8) : Located :=
  if contains path "cgi-bin" then
    ⟨false, 46 :: path.takeWhile (· ≠ 63), (path.dropWhile (· ≠ 63)).drop 1⟩
  else
    ⟨true, 46 :: path ++ if path.getLast? = some 47 then chars "home.html" else [], []⟩

def response (site : Site) (path : List UInt8) : Response :=
  let l := locate path
  if l.filename.length < maxline then serve site l.isStatic l.filename l.cgiargs else .fault

def Word (word : List UInt8) : Prop := word ≠ [] ∧ ∀ c ∈ word, isspace c = false ∧ c ≠ 0

def requestText (method path version : List UInt8) : List UInt8 :=
  method ++ 32 :: (path ++ 32 :: (version ++ crlf))

structure Asks (text path header method version : List UInt8) : Prop where
  text_eq : text = requestText method path version ++ header
  get : sameLetters method (chars "GET")
  fits : (requestText method path version).length ≤ maxline - 1
  methodWord : Word method
  pathWord : Word path
  versionWord : Word version

instance (word : List UInt8) : Decidable (Word word) := inferInstanceAs (Decidable (_ ∧ _))

variable {site : Site} {f : Frame} {uri : Line} {u : CString} {rp : Rio} {fuel : Nat}
  {word word' text path header method version rest : List UInt8} {client : List Delivery}

/-! ## The URI -/

theorem takeWhile_of_strstr {c : UInt8} {n : Nat} (h : strstr [c] text = some n) :
    text.take n = text.takeWhile (· ≠ c) ∧ text.drop (n + 1) = (text.dropWhile (· ≠ c)).drop 1 := by
  obtain ⟨pre, rest, rfl, hc, rfl⟩ := strstr_one_some h
  have hpre : ∀ b ∈ pre, decide (b ≠ c) = true := by
    intro b hb
    simpa using ne_of_mem_of_not_mem hb hc
  rw [List.takeWhile_append_of_pos hpre, List.dropWhile_append_of_pos hpre,
    List.takeWhile_cons_of_neg (by simp), List.dropWhile_cons_of_neg (by simp), List.append_nil,
    List.take_left, ← List.drop_drop, List.drop_left]
  exact ⟨rfl, rfl⟩

theorem takeWhile_of_strstr_none {c : UInt8} (h : strstr [c] text = none) :
    text.takeWhile (· ≠ c) = text ∧ text.dropWhile (· ≠ c) = [] := by
  have hc : c ∉ text := by
    intro hmem
    obtain ⟨pre, rest, rfl, hpre⟩ := List.eq_append_cons_of_mem hmem
    rw [strstr_one hpre] at h
    cases h
  have hall : ∀ b ∈ text, decide (b ≠ c) = true := by
    intro b hb
    simpa using ne_of_mem_of_not_mem hb hc
  exact ⟨List.takeWhile_eq_self_iff.mpr hall, List.dropWhile_eq_nil_iff.mpr hall⟩

theorem store_fits (buf : Line) (hnul : 0 ∉ text) (hlen : text.length < maxline) :
    ∃ buf', buf.store (text ++ [0]) = some buf' ∧ buf'.str 0 = some ⟨text, hnul⟩ := by
  have hroom : (text ++ [0]).length ≤ maxline := by
    rw [List.length_append, List.length_singleton]
    exact hlen
  obtain ⟨buf', hstore, hbytes⟩ := buf.store_eq hroom
  refine ⟨buf', hstore, ?_⟩
  have hstart : buf'.bytes = [] ++ (text ++ 0 :: buf.bytes.drop (text ++ [0]).length) := by
    rw [hbytes]
    simp
  exact Buffer.str_append hstart hnul

theorem store_long (buf : Line) (hlen : ¬text.length < maxline) :
    buf.store (text ++ [0]) = none := by
  apply dif_neg
  rw [List.length_append, List.length_singleton]
  exact hlen

def Target.Holds (t : Target) (l : Located) : Prop :=
  t.isStatic = l.isStatic ∧ (t.filename.str 0).map CString.bytes = some l.filename ∧
    (t.cgiargs.str 0).map CString.bytes = some l.cgiargs

def Parsed (r : Option Target) (l : Located) : Prop :=
  (l.filename.length < maxline ∧ ∃ t, r = some t ∧ t.Holds l) ∨
    ¬l.filename.length < maxline ∧ r = none

def storeTarget (f : Frame) (l : Located) : Option Target := do
  let cgiargs ← f.cgiargs.store (l.cgiargs ++ [0])
  let filename ← f.filename.store (l.filename ++ [0])
  some ⟨l.isStatic, filename, cgiargs⟩

theorem parsed_storeTarget (f : Frame) {l : Located} (hname : 0 ∉ l.filename)
    (hargs : 0 ∉ l.cgiargs) (hlen : l.cgiargs.length < maxline) : Parsed (storeTarget f l) l := by
  obtain ⟨cgiargs, hstore, hstr⟩ := store_fits f.cgiargs hargs hlen
  simp only [storeTarget, hstore, bind, Option.bind_some]
  by_cases hshort : l.filename.length < maxline
  · obtain ⟨filename, hstore', hstr'⟩ := store_fits f.filename hname hshort
    refine .inl ⟨hshort, _, by rw [hstore']; rfl, rfl, ?_, ?_⟩
    · rw [hstr']
      rfl
    · rw [hstr]
      rfl
  · refine .inr ⟨hshort, ?_⟩
    rw [store_long _ hshort]
    rfl

/-- The name of the default file is appended to what is stored already. -/
theorem parseUri_static (f : Frame) (hu : uri.str 0 = some u) (hne : u.bytes ≠ [])
    (hstatic : contains u.bytes "cgi-bin" = false) : Parsed (parseUri f uri) (locate u.bytes) := by
  have hdot : chars "." = [46] := by decide
  have hlast := List.getLast?_eq_some_getLast hne
  have hname : 0 ∉ 46 :: u.bytes := List.not_mem_cons_of_ne_of_not_mem (by decide) u.noNul
  have hhome : 0 ∉ chars "home.html" := by decide
  have hnil : (0 : UInt8) ∉ ([] : List UInt8) := List.not_mem_nil
  have hmax : ([] : List UInt8).length < maxline := by decide
  by_cases hslash : u.bytes.getLast hne = 47
  · have hlocate : locate u.bytes = ⟨true, 46 :: u.bytes ++ chars "home.html", []⟩ := by
      simp [locate, hstatic, hlast, hslash]
    obtain ⟨cgiargs, hstore, hstr⟩ := store_fits f.cgiargs hnil hmax
    rw [List.nil_append] at hstore
    rw [hlocate]
    by_cases hshort : (46 :: u.bytes ++ chars "home.html").length < maxline
    · have hshort' : (46 :: u.bytes).length < maxline :=
        (List.sublist_append_left _ _).length_le.trans_lt hshort
      obtain ⟨first, hfirst, -⟩ := store_fits f.filename hname hshort'
      have hboth : 0 ∉ 46 :: u.bytes ++ chars "home.html" := by
        rw [List.mem_append, not_or]
        exact ⟨hname, hhome⟩
      obtain ⟨filename, hstore', hstr'⟩ := store_fits first hboth hshort
      refine .inl ⟨hshort, ⟨true, filename, cgiargs⟩, ?_, rfl, ?_, ?_⟩
      · simp only [parseUri, hu, hstatic, hdot, hstore, bind, Option.bind_some,
          Bool.false_eq_true, not_false_eq_true, if_true, List.singleton_append, hfirst, hlast,
          hslash, hstore']
      · rw [hstr']
        rfl
      · rw [hstr]
        rfl
    · refine .inr ⟨hshort, ?_⟩
      simp only [parseUri, hu, hstatic, hdot, hstore, bind, Option.bind_some,
        Bool.false_eq_true, not_false_eq_true, if_true, List.singleton_append, hlast, hslash]
      cases hfirst : f.filename.store (46 :: u.bytes ++ [0]) with
      | none => rfl
      | some first => exact congrArg (Option.bind · _) (store_long first hshort)
  · have hlocate : locate u.bytes = ⟨true, 46 :: u.bytes, []⟩ := by
      simp [locate, hstatic, hlast, hslash]
    have hparsed := parsed_storeTarget f (l := locate u.bytes) (by rwa [hlocate])
      (by rw [hlocate]; exact hnil) (by rw [hlocate]; exact hmax)
    have heq : parseUri f uri = storeTarget f (locate u.bytes) := by
      simp [parseUri, storeTarget, hu, hstatic, hdot, hlast, hslash, hlocate]
    rwa [heq]

theorem parseUri_dynamic (f : Frame) (hu : uri.str 0 = some u)
    (hdynamic : contains u.bytes "cgi-bin" = true) : Parsed (parseUri f uri) (locate u.bytes) := by
  have hshort : u.bytes.length < maxline := Request.length_lt hu
  have hdot : chars "." = [46] := by decide
  have hmark : chars "?" = [63] := by decide
  have hname : 0 ∉ (46 : UInt8) :: u.bytes.takeWhile (· ≠ 63) :=
    List.not_mem_cons_of_ne_of_not_mem (by decide) fun hmem =>
      u.noNul ((List.takeWhile_sublist _).subset hmem)
  have hargs : 0 ∉ (u.bytes.dropWhile (· ≠ 63)).drop 1 := fun hmem =>
    u.noNul (((List.drop_sublist _ _).trans (List.dropWhile_sublist _)).subset hmem)
  have hlen : ((u.bytes.dropWhile (· ≠ 63)).drop 1).length < maxline :=
    (((List.drop_sublist _ _).trans (List.dropWhile_sublist _)).length_le).trans_lt hshort
  have hlocate : locate u.bytes =
      ⟨false, 46 :: u.bytes.takeWhile (· ≠ 63), (u.bytes.dropWhile (· ≠ 63)).drop 1⟩ :=
    if_pos hdynamic
  have hparsed := parsed_storeTarget f (l := locate u.bytes) (by rwa [hlocate])
    (by rwa [hlocate]) (by rwa [hlocate])
  have heq : parseUri f uri = storeTarget f (locate u.bytes) := by
    simp only [parseUri, storeTarget, hu, hdynamic, not_true_eq_false, if_false, hdot, hmark,
      hlocate, bind, Option.bind_some]
    cases hfind : strstr [63] u.bytes with
    | some i =>
        obtain ⟨htake, hdrop⟩ := takeWhile_of_strstr hfind
        simp only [htake, hdrop, List.singleton_append]
    | none =>
        obtain ⟨htake, hdrop⟩ := takeWhile_of_strstr_none hfind
        simp only [htake, hdrop, List.singleton_append, List.drop_nil, List.nil_append]
  rwa [heq]

theorem serveUri_eq (hu : uri.str 0 = some u) (hne : u.bytes ≠ []) :
    serveUri site f uri = response site u.bytes := by
  have hparsed : Parsed (parseUri f uri) (locate u.bytes) := by
    cases hkind : contains u.bytes "cgi-bin" with
    | false => exact parseUri_static f hu hne hkind
    | true => exact parseUri_dynamic f hu hkind
  rcases hparsed with ⟨hlen, t, ht, hkind, hname, hargs⟩ | ⟨hlen, hnone⟩
  · obtain ⟨filename, hfilename, hbytes⟩ := Option.map_eq_some_iff.mp hname
    obtain ⟨cgiargs, hcgiargs, hbytes'⟩ := Option.map_eq_some_iff.mp hargs
    simp only [serveUri, ht, hfilename, hcgiargs, response, if_pos hlen, hkind, hbytes, hbytes']
  · simp only [serveUri, hnone, response, if_neg hlen]

/-! ## The request line -/

theorem Word.noNul (h : Word word) : 0 ∉ word := fun hmem => (h.2 0 hmem).2 rfl

theorem Word.noLf (h : Word word) : 10 ∉ word := by
  intro hmem
  exact absurd (h.2 10 hmem).1 (by decide)

theorem requestText_ne_nil : requestText method path version ≠ [] := by
  simp [requestText]

theorem scanWords_text (b₁ b₂ b₃ : Line) (hm : Word method) (hp : Word path) (hv : Word version)
    (hfits : (requestText method path version).length ≤ maxline - 1) :
    ∃ r, scanWords b₁ b₂ b₃ (requestText method path version) = some r ∧
      r.method.str 0 = some ⟨method, hm.noNul⟩ ∧ r.url.str 0 = some ⟨path, hp.noNul⟩ ∧
      r.version.str 0 = some ⟨version, hv.noNul⟩ := by
  have hspace : isspace 32 = true := by decide
  have hends (rest : List UInt8) : Ends (32 :: rest) := .inr ⟨32, rest, rfl, hspace⟩
  have hcrlf : Ends crlf := .inr ⟨13, [10], rfl, by decide⟩
  have hgap : ∀ c ∈ [(32 : UInt8)], isspace c = true := by decide +kernel
  have hword {w : List UInt8} (h : Word w) : ∀ c ∈ w, isspace c = false := fun c hc => (h.2 c hc).1
  have hfirst : scanWord ([] ++ (method ++ 32 :: (path ++ 32 :: (version ++ crlf)))) = _ :=
    scanWord_field (by simp) hm.1 (hword hm) (hends (path ++ 32 :: (version ++ crlf)))
  have hsecond := scanWord_field hgap hp.1 (hword hp) (hends (version ++ crlf))
  have hthird := scanWord_field hgap hv.1 (hword hv) hcrlf
  rw [List.nil_append] at hfirst
  rw [List.singleton_append] at hsecond hthird
  simp only [requestText, List.length_append, List.length_cons] at hfits
  obtain ⟨m, hmstore, hmstr⟩ := store_fits b₁ hm.noNul (by omega)
  obtain ⟨u, hustore, hustr⟩ := store_fits b₂ hp.noNul (by omega)
  obtain ⟨v, hvstore, hvstr⟩ := store_fits b₃ hv.noNul (by omega)
  refine ⟨⟨m, u, v⟩, ?_, hmstr, hustr, hvstr⟩
  simp only [scanWords, requestText, hfirst, hsecond, hthird, storeWord, if_neg hm.1,
    if_neg hp.1, if_neg hv.1, hmstore, hustore, hvstore, bind, Option.bind_some]

namespace Asks

theorem readline (h : Asks (client.flatMap Delivery.data) path header method version)
    (hclean : Delivery.reset ∉ client) (buf : Line) :
    ∃ rp buf' text, rioReadlineb (rioReadinitb client) maxline =
        (requestText method path version ++ [0], some (requestText method path version).length,
          rp) ∧
      buf.store (requestText method path version ++ [0]) = some buf' ∧ buf'.str 0 = some text ∧
      text.bytes = requestText method path version ∧ rp.stream = header ∧ rp.Clean := by
  have hstream : (rioReadinitb client).stream = client.flatMap Delivery.data := rfl
  have hline : 10 ∉ method ++ 32 :: (path ++ 32 :: (version ++ [13])) := by
    simp [h.methodWord.noLf, h.pathWord.noLf, h.versionWord.noLf]
  have hlf : method ++ 32 :: (path ++ 32 :: (version ++ [13])) ++ [10] =
      requestText method path version := by simp [requestText, crlf]
  have hshort : (method ++ 32 :: (path ++ 32 :: (version ++ [13]))).length < maxline - 1 := by
    have hfits := h.fits
    rwa [← hlf, List.length_append, List.length_singleton] at hfits
  have htext : client.flatMap Delivery.data =
      method ++ 32 :: (path ++ 32 :: (version ++ [13])) ++ 10 :: header := by
    rw [h.text_eq, ← hlf]
    simp
  have hcut := cutLine_line hline hshort header
  rw [hlf, ← htext] at hcut
  have hne : (rioReadinitb client).stream ≠ [] := by
    rw [hstream, htext]
    simp
  have hinit : (rioReadinitb client).Clean := hclean
  obtain ⟨rp, hread, hrest, hclean'⟩ := rioReadlineb_clean hinit hne
  rw [hstream, hcut] at hread hrest
  obtain ⟨buf', text, hstore, hstr, hbytes, -⟩ := store_line ⟨requestText_ne_nil, h.fits⟩ buf
  have hnul : 0 ∉ requestText method path version := by
    simp [requestText, crlf, h.methodWord.noNul, h.pathWord.noNul, h.versionWord.noNul]
  have hwhole : Request.stringOf (requestText method path version) =
      requestText method path version := by
    simpa [Request.stringOf] using CString.takeWhile_append hnul []
  exact ⟨rp, buf', text, hread, hstore, hstr, hbytes.trans hwhole, hrest, hclean'⟩

theorem readRequest (h : Asks (client.flatMap Delivery.data) path header method version)
    (hclean : Delivery.reset ∉ client) (f : Frame) :
    ∃ r rp, readRequest f client = .ok (some (r, rp)) ∧
      r.method.str 0 = some ⟨method, h.methodWord.noNul⟩ ∧
      r.uri.str 0 = some ⟨path, h.pathWord.noNul⟩ ∧ (r.version.str 0).isSome ∧
      rp.stream = header ∧ rp.Clean := by
  obtain ⟨rp, buf, text, hread, hstore, hstr, hbytes, hrest, hclean'⟩ := h.readline hclean f.buf
  obtain ⟨r, hscan, hm, hu, hv⟩ :=
    scanWords_text f.method f.uri f.version h.methodWord h.pathWord h.versionWord h.fits
  have hpos : (requestText method path version).length ≠ 0 :=
    mt List.length_eq_zero_iff.mp requestText_ne_nil
  refine ⟨⟨r.method, r.url, r.version⟩, rp, ?_, hm, hu, by rw [hv]; rfl, hrest, hclean'⟩
  simp only [Tiny.readRequest, hread, if_neg hpos, hstore, hstr, hbytes, scanRequest, hscan, bind,
    Option.bind_some, Option.map_some]

end Asks

/-! ## One request -/

theorem doit_asks (site : Site) (f : Frame) (fuel : Nat) (hclean : Delivery.reset ∉ client)
    (h : Asks (client.flatMap Delivery.data) path header method version) :
    ∃ rp : Rio, rp.stream = header ∧ rp.Clean ∧ doit site f fuel client =
      match readRequesthdrs fuel rp f.headerBuf with
      | .error e => .halt e
      | .ok () => response site path := by
  obtain ⟨r, rp, hread, hm, hu, hv, hstream, hclean'⟩ := h.readRequest hclean f
  obtain ⟨version', hversion⟩ := Option.isSome_iff_exists.mp hv
  have hget := h.get
  refine ⟨rp, hstream, hclean', ?_⟩
  cases hhdrs : readRequesthdrs fuel rp f.headerBuf <;>
    simp only [doit, hread, hm, hu, hversion, hget, not_true_eq_false, if_false,
      serveUri_eq hu h.pathWord.1, hhdrs]

theorem doit_header (hclean : Delivery.reset ∉ client)
    (h : Asks (client.flatMap Delivery.data) path header method version) (hheader : header ≠ []) :
    doit site f fuel client =
      if crlf ∈ (splitLines header).take fuel then response site path
      else .halt (.stop .spinning) := by
  obtain ⟨rp, hstream, hclean', hdoit⟩ := doit_asks site f fuel hclean h
  rw [hdoit, readRequesthdrs_eq hclean' (hstream ▸ hheader), hstream]
  by_cases hblank : crlf ∈ (splitLines header).take fuel
  · simp only [if_pos hblank]
  · simp only [if_neg hblank]

theorem doit_no_header (hclean : Delivery.reset ∉ client)
    (h : Asks (client.flatMap Delivery.data) path [] method version) :
    doit site f (fuel + 1) client =
      match f.headerBuf.str 0 with
      | none => .fault
      | some last =>
          if last.bytes = crlf then response site path else .halt (.stop .spinning) := by
  obtain ⟨rp, hstream, hclean', hdoit⟩ := doit_asks site f (fuel + 1) hclean h
  rw [hdoit, readRequesthdrs_nil hclean' hstream]
  cases f.headerBuf.str 0 with
  | none => rfl
  | some last =>
      by_cases hblank : last.bytes = crlf
      · simp only [if_pos hblank]
      · simp only [if_neg hblank]

/-- However the request is delivered, Tiny answers for the path once it has read
the empty line, and without one it reads for ever.  When nothing follows the
request line, what the array for the header held before is taken for the line. -/
theorem doit_get (hclean : Delivery.reset ∉ client)
    (h : Asks (client.flatMap Delivery.data) path header method version) :
    (header ≠ [] → doit site f fuel client =
      if crlf ∈ (splitLines header).take fuel then response site path
      else .halt (.stop .spinning)) ∧
    (header = [] → doit site f (fuel + 1) client =
      match f.headerBuf.str 0 with
      | none => .fault
      | some last =>
          if last.bytes = crlf then response site path else .halt (.stop .spinning)) := by
  refine ⟨doit_header hclean h, ?_⟩
  rintro rfl
  exact doit_no_header hclean h

def oneFile : Site where
  stat name := if name = chars "./a" then some ⟨true, true, false, true, [120]⟩ else none
  execve _ _ := []

def zeroFrame : Frame :=
  ⟨Request.zeros, Request.zeros, Request.zeros, Request.zeros, Request.zeros, Request.zeros,
    Request.zeros⟩

theorem asks_a : Asks ([Delivery.bytes 71 (chars "ET /a HTTP/1.0\r\n\r\n")].flatMap Delivery.data)
    (chars "/a") crlf (chars "GET") (chars "HTTP/1.0") :=
  ⟨by decide +kernel, by decide +kernel, by decide +kernel, by decide +kernel, by decide +kernel,
    by decide +kernel⟩

theorem asks_no_header :
    Asks ([Delivery.bytes 71 (chars "ET /a HTTP/1.0\r\n")].flatMap Delivery.data)
      (chars "/a") [] (chars "GET") (chars "HTTP/1.0") :=
  ⟨by decide, asks_a.get, asks_a.fits, asks_a.methodWord, asks_a.pathWord,
    asks_a.versionWord⟩

theorem doit_get_a :
    doit oneFile zeroFrame 1 [.bytes 71 (chars "ET /a HTTP/1.0\r\n\r\n")] =
        (if crlf ∈ (splitLines crlf).take 1 then response oneFile (chars "/a")
        else .halt (.stop .spinning)) ∧
      ∀ f : Frame, doit oneFile f 1 [.bytes 71 (chars "ET /a HTTP/1.0\r\n")] =
        match f.headerBuf.str 0 with
        | none => .fault
        | some last =>
            if last.bytes = crlf then response oneFile (chars "/a")
            else .halt (.stop .spinning) :=
  ⟨(doit_get (by decide) asks_a).1 (by decide),
    fun _ => (doit_get (by decide) asks_no_header).2 rfl⟩

end CsappLabs.Proxy.Tiny
