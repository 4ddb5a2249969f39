import AmqOs.Network.HttpDefs

/-!
# URLs

What `parse_url` should accept (`IsUrl`), and what it refuses: an empty host, and a port that is a multiple of 65536, since
the port is accumulated in 16 bits and compared with 65535 afterwards. Everything else is accepted: a longer host is cut and
the rest of it dropped, a longer path is cut, and text behind the port is dropped. So the URLs for which `parse_url` is right
are those of the grammar and those that it refuses (`parseUrl_iff`).
-/

set_option autoImplicit false

namespace AmqOs.Network

open AmqOs.Lib CString

/-! ## The grammar -/

/-- Nothing, or `:` and a decimal port. -/
def PortText (text : CString) (port : Nat) : Prop :=
  (text = [] ∧ port = 80) ∨
    ∃ digits, text = colon :: digits ∧ digits ≠ [] ∧ (∀ c ∈ digits, isDigit c = true) ∧ port = decimal digits ∧
      1 ≤ port ∧ port ≤ 65535

/-- Nothing, or a path of at most 255 characters. -/
def PathText (text path : CString) : Prop :=
  (text = [] ∧ path = [slash]) ∨ (text.head? = some slash ∧ text.length ≤ 255 ∧ path = text)

/-- `[http:// or https://] host [: decimal port] [/path]` -/
def IsUrl (url host path : CString) (port : Nat) : Prop :=
  ∃ scheme portText pathText, url = scheme ++ (host ++ (portText ++ pathText)) ∧
    (scheme = [] ∨ scheme = chars "http://" ∨ scheme = chars "https://") ∧
    (1 ≤ host.length ∧ host.length ≤ 255 ∧ ∀ c ∈ host, isHostChar c = true) ∧
    PortText portText port ∧ PathText pathText path

/-- The host without a limit, and what follows. -/
def hostOf (url : CString) : CString := (afterScheme url).takeWhile isHostChar

def afterHost (url : CString) : CString := (afterScheme url).dropWhile isHostChar

/-- No host, or after a host that fits a port that is a multiple of 65536. -/
def UrlRefused (url : CString) : Prop :=
  hostOf url = [] ∨ ((hostOf url).length ≤ 255 ∧ (afterHost url).head? = some colon ∧
    decimal (((afterHost url).drop 1).takeWhile isDigit) % 65536 = 0)

/-- What is returned are the parts of a URL. -/
def ParsedRight (url : CString) : Prop :=
  ∀ host path port, parseUrl url = some (host, path, port) → IsUrl url host path port.toNat

/-! ## The parser -/

section Parser

variable {url host path portText pathText ptr : CString} {n : Nat}

/-- The port is read modulo 65536. -/
theorem parsePort_eq (n : Nat) (ptr : CString) : parsePort (UInt16.ofNat n) ptr =
    (UInt16.ofNat (decimalFrom n (ptr.takeWhile isDigit)), ptr.dropWhile isDigit) := by
  induction ptr generalizing n with
  | nil => rfl
  | cons c ptr ih =>
    rw [parsePort]
    by_cases hc : isDigit c = true
    · have hstep : UInt16.ofNat n * 10 + UInt16.ofNat (digitVal c) = UInt16.ofNat (n * 10 + digitVal c) := by
        rw [UInt16.ofNat_add, UInt16.ofNat_mul]
        rfl
      rw [if_pos hc, hstep, ih, List.takeWhile_cons_of_pos hc, List.dropWhile_cons_of_pos hc]
      rfl
    · rw [if_neg hc, List.takeWhile_cons_of_neg hc, List.dropWhile_cons_of_neg hc]
      rfl

theorem ofNat_eq_zero : UInt16.ofNat n = 0 ↔ n % 65536 = 0 := by
  rw [← UInt16.toNat_inj, UInt16.toNat_ofNat']
  rfl

/-- A host that fits is read whole. -/
theorem parseUrl_short (hlen : (hostOf url).length ≤ 255) : parseUrl url =
    if hostOf url = [] then none
    else if (afterHost url).head? = some colon then
      if decimal (((afterHost url).drop 1).takeWhile isDigit) % 65536 = 0 then none
      else some (hostOf url, parsePath (((afterHost url).drop 1).dropWhile isDigit),
        UInt16.ofNat (decimal (((afterHost url).drop 1).takeWhile isDigit)))
    else some (hostOf url, parsePath (afterHost url), 80) := by
  have hport := parsePort_eq 0 ((afterHost url).drop 1)
  have hzero : UInt16.ofNat 0 = 0 := rfl
  rw [hzero] at hport
  have hscan : scan isHostChar 255 (afterScheme url) = (hostOf url, afterHost url) := scan_short hlen
  unfold parseUrl
  rw [hscan]
  dsimp only
  rw [hport]
  dsimp only
  rw [show decimalFrom 0 = decimal from rfl]
  have hbig : ∀ m, ¬ (UInt16.ofNat m).toNat > 65535 := by
    intro m
    have := (UInt16.ofNat m).toNat_lt
    omega
  simp only [hbig, decide_false, Bool.or_false, decide_eq_true_eq, ofNat_eq_zero]

/-- A longer host is cut, and what follows starts with a character of it. -/
theorem parseUrl_long (hlen : 255 < (hostOf url).length) :
    parseUrl url = some ((hostOf url).take 255, [slash], 80) := by
  have hhost : hostOf url = (afterScheme url).takeWhile isHostChar := rfl
  have hcut : ((hostOf url).take 255).length = 255 := by
    rw [List.length_take]
    omega
  have hscan : scan isHostChar 255 (afterScheme url) = ((hostOf url).take 255, (afterScheme url).drop 255) := by
    rw [scan_eq, ← hhost, hcut]
  have hdrop : (afterScheme url).drop 255 = (hostOf url).drop 255 ++ afterHost url := by
    nth_rewrite 1 [← List.takeWhile_append_dropWhile (p := isHostChar) (l := afterScheme url)]
    rw [← hhost, List.drop_append_of_le_length (by omega)]
    rfl
  obtain ⟨c, t, hc⟩ : ∃ c t, (hostOf url).drop 255 = c :: t := by
    cases hd : (hostOf url).drop 255 with
    | nil =>
      rw [List.drop_eq_nil_iff] at hd
      omega
    | cons c t => exact ⟨c, t, rfl⟩
  have hchar : isHostChar c = true := by
    have hmem : c ∈ hostOf url := List.mem_of_mem_drop (by rw [hc]; exact List.mem_cons_self)
    exact List.mem_takeWhile_imp hmem
  unfold isHostChar at hchar
  rw [Bool.and_eq_true, bne_iff_ne, bne_iff_ne] at hchar
  have hne : (hostOf url).take 255 ≠ [] := by
    intro h0
    rw [h0] at hcut
    cases hcut
  unfold parseUrl
  rw [hscan, hdrop, hc]
  dsimp only
  rw [if_neg hne]
  simp [parsePath, hchar.1, hchar.2]

/-- **What is refused.** -/
theorem parseUrl_eq_none : parseUrl url = none ↔ UrlRefused url := by
  unfold UrlRefused
  by_cases hlen : (hostOf url).length ≤ 255
  · rw [parseUrl_short hlen]
    by_cases h0 : hostOf url = []
    · simp [h0]
    by_cases hcolon : (afterHost url).head? = some colon
    · rw [if_neg h0, if_pos hcolon]
      by_cases hport : decimal (((afterHost url).drop 1).takeWhile isDigit) % 65536 = 0
      · rw [if_pos hport]
        exact iff_of_true rfl (.inr ⟨hlen, hcolon, hport⟩)
      · rw [if_neg hport]
        refine iff_of_false (by simp) ?_
        rintro (h | ⟨-, -, h⟩)
        · exact h0 h
        · exact hport h
    · simp [h0, hcolon]
  · rw [parseUrl_long (by omega)]
    have hne : hostOf url ≠ [] := by
      intro h0
      rw [h0] at hlen
      exact hlen (Nat.zero_le _)
    simp [hlen, hne]

end Parser

/-! ## The grammar is accepted -/

section Accept

variable {url host path portText pathText ptr s : CString} {literal : String} {n : Nat}

theorem hasPrefix_iff (hs : s.map Subtype.val = lit literal) : hasPrefix literal ptr = true ↔ s <+: ptr := by
  rw [hasPrefix, ← hs, List.isPrefixOf_iff_prefix, List.prefix_map_iff_of_injective Subtype.val_injective]

theorem stopsAt_port (hport : PortText portText n) (hpath : PathText pathText path) :
    StopsAt isHostChar (portText ++ pathText) := by
  have hpathStops : StopsAt isHostChar pathText := by
    rcases hpath with ⟨rfl, -⟩ | ⟨hhead, -, -⟩
    · exact stopsAt_nil
    · rintro a l rfl
      rw [List.head?_cons, Option.some.injEq] at hhead
      rw [hhead]
      rfl
  rcases hport with ⟨rfl, -⟩ | ⟨digits, rfl, -⟩
  · exact hpathStops
  · exact stopsAt_cons rfl

theorem stopsAt_path (hpath : PathText pathText path) : StopsAt isDigit pathText := by
  rcases hpath with ⟨rfl, -⟩ | ⟨hhead, -, -⟩
  · exact stopsAt_nil
  · rintro a l rfl
    rw [List.head?_cons, Option.some.injEq] at hhead
    rw [hhead]
    rfl

/-- Behind the host there is no `://`. -/
theorem not_scheme {name : CString} (hname : ∀ c ∈ name, isHostChar c = true)
    (hhost : ∀ c ∈ host, isHostChar c = true) (hport : PortText portText n) (hpath : PathText pathText path) :
    ¬ name ++ [colon, slash, slash] <+: host ++ (portText ++ pathText) := by
  rintro ⟨r, hr⟩
  rw [List.append_assoc] at hr
  have hstop : StopsAt isHostChar ([colon, slash, slash] ++ r) := stopsAt_cons rfl
  have hrest := congrArg (List.dropWhile isHostChar) hr
  rw [dropWhile_append hname hstop, dropWhile_append hhost (stopsAt_port hport hpath)] at hrest
  rcases hport with ⟨rfl, -⟩ | ⟨digits, rfl, hne, hdigits, -⟩
  · rcases hpath with ⟨rfl, -⟩ | ⟨hhead, -, -⟩
    · cases hrest
    · rw [List.nil_append] at hrest
      rw [← hrest] at hhead
      cases hhead
  · obtain ⟨d, ds, rfl⟩ := List.exists_cons_of_ne_nil hne
    have hd := hdigits d List.mem_cons_self
    injection hrest with _ hrest
    injection hrest with hslash _
    rw [← hslash] at hd
    cases hd

theorem chars_http : chars "http://" = chars "http" ++ [colon, slash, slash] := by decide

theorem chars_https : chars "https://" = chars "https" ++ [colon, slash, slash] := by decide

/-- The scheme is dropped. -/
theorem afterScheme_isUrl (h : IsUrl url host path n) : ∃ portText pathText,
    afterScheme url = host ++ (portText ++ pathText) ∧ PortText portText n ∧ PathText pathText path := by
  obtain ⟨scheme, portText, pathText, rfl, hscheme, ⟨-, -, hhost⟩, hport, hpath⟩ := h
  refine ⟨portText, pathText, ?_, hport, hpath⟩
  have hhttp : (chars "http://").map Subtype.val = lit "http://" := by decide
  have hhttps : (chars "https://").map Subtype.val = lit "https://" := by decide
  unfold afterScheme
  rcases hscheme with rfl | rfl | rfl
  · have h1 : ¬ hasPrefix "http://" (host ++ (portText ++ pathText)) = true := by
      rw [hasPrefix_iff hhttp, chars_http]
      exact not_scheme (by decide +kernel) hhost hport hpath
    have h2 : ¬ hasPrefix "https://" (host ++ (portText ++ pathText)) = true := by
      rw [hasPrefix_iff hhttps, chars_https]
      exact not_scheme (by decide +kernel) hhost hport hpath
    rw [List.nil_append, if_neg h1, if_neg h2]
  · rw [if_pos ((hasPrefix_iff hhttp).mpr (List.prefix_append _ _))]
    rfl
  · have h1 : ¬ hasPrefix "http://" (chars "https://" ++ (host ++ (portText ++ pathText))) = true := by
      rw [hasPrefix_iff hhttp]
      rintro ⟨r, hr⟩
      have hfour := congrArg (fun l : CString => l[4]?) hr
      rw [List.getElem?_append_left (by decide), List.getElem?_append_left (by decide)] at hfour
      exact absurd hfour (by decide)
    rw [if_neg h1, if_pos ((hasPrefix_iff hhttps).mpr (List.prefix_append _ _))]
    rfl

/-- The host of a URL, and what follows. -/
theorem afterHost_isUrl (h : IsUrl url host path n) : hostOf url = host ∧ 1 ≤ host.length ∧ host.length ≤ 255 ∧
    ∃ portText pathText, afterHost url = portText ++ pathText ∧ PortText portText n ∧ PathText pathText path := by
  obtain ⟨portText, pathText, hafter, hport, hpath⟩ := afterScheme_isUrl h
  obtain ⟨-, -, -, -, -, ⟨h1, h255, hhost⟩, -⟩ := h
  refine ⟨?_, h1, h255, portText, pathText, ?_, hport, hpath⟩
  · rw [hostOf, hafter]
    exact takeWhile_append hhost (stopsAt_port hport hpath)
  · rw [afterHost, hafter]
    exact dropWhile_append hhost (stopsAt_port hport hpath)

theorem parsePath_eq (hpath : PathText pathText path) : parsePath pathText = path := by
  rcases hpath with ⟨rfl, rfl⟩ | ⟨hhead, hlen, rfl⟩
  · rfl
  · have hne : path ≠ [] := by
      rintro rfl
      cases hhead
    unfold parsePath
    rw [if_neg hne]
    split
    · rename_i h1
      rw [h1]
    · exact List.take_of_length_le hlen

/-- **What is accepted.** -/
theorem parseUrl_of_isUrl (h : IsUrl url host path n) : parseUrl url = some (host, path, UInt16.ofNat n) := by
  obtain ⟨hhost, h1, h255, portText, pathText, hafter, hport, hpath⟩ := afterHost_isUrl h
  have hne : host ≠ [] := List.length_pos_iff.mp h1
  rw [parseUrl_short (by rw [hhost]; exact h255), hhost, if_neg hne, hafter]
  rcases hport with ⟨rfl, rfl⟩ | ⟨digits, rfl, -, hdigits, rfl, hlow, hhigh⟩
  · have hcolon : ¬ ([] ++ pathText).head? = some colon := by
      rw [List.nil_append]
      rcases hpath with ⟨rfl, -⟩ | ⟨hhead, -, -⟩
      · simp
      · rw [hhead]
        simp [slash, colon]
    rw [if_neg hcolon, List.nil_append, parsePath_eq hpath]
    rfl
  · have hhead : (colon :: digits ++ pathText).head? = some colon := rfl
    have hrest : (colon :: digits ++ pathText).drop 1 = digits ++ pathText := rfl
    rw [if_pos hhead, hrest, takeWhile_append hdigits (stopsAt_path hpath), dropWhile_append hdigits (stopsAt_path hpath),
      parsePath_eq hpath, if_neg (by omega)]

end Accept

/-- **URLs.** What `parse_url` returns are the parts of a URL exactly for the URLs of the grammar and for those that it
refuses. -/
theorem parseUrl_iff (url : CString) : ParsedRight url ↔ (∃ host path port, IsUrl url host path port) ∨ UrlRefused url := by
  constructor
  · intro h
    cases hparse : parseUrl url with
    | none => exact .inr (parseUrl_eq_none.mp hparse)
    | some out =>
      obtain ⟨host, path, port⟩ := out
      exact .inl ⟨host, path, port.toNat, h host path port hparse⟩
  · rintro (⟨host, path, n, hurl⟩ | hrefused)
    · intro host' path' port' hparse
      have hn : n < 65536 := by
        obtain ⟨-, -, -, _, _, -, hport, -⟩ := afterHost_isUrl hurl
        rcases hport with ⟨-, rfl⟩ | ⟨-, -, -, -, -, -, hhigh⟩
        · omega
        · omega
      rw [parseUrl_of_isUrl hurl] at hparse
      cases hparse
      rwa [UInt16.toNat_ofNat', Nat.mod_eq_of_lt hn]
    · intro host path port hparse
      rw [parseUrl_eq_none.mpr hrefused] at hparse
      cases hparse

/-- Port 65616 is read as port 80. -/
theorem parseUrl_bigPort : ¬ ∀ url, ParsedRight url := by
  intro h
  have hparse : parseUrl (chars "a:65616") = some (chars "a", chars "/", 80) := by decide
  obtain ⟨-, -, -, portText, pathText, hafter, hport, hpath⟩ := afterHost_isUrl (h _ _ _ _ hparse)
  have hrest : afterHost (chars "a:65616") = colon :: chars "65616" := by decide
  rw [hrest] at hafter
  rcases hport with ⟨rfl, -⟩ | ⟨digits, rfl, -, hdigits, hvalue, -⟩
  · rw [List.nil_append] at hafter
    rcases hpath with ⟨rfl, -⟩ | ⟨hhead, -⟩
    · cases hafter
    · rw [← hafter] at hhead
      cases hhead
  · injection hafter with _ hafter
    have htake : (digits ++ pathText).takeWhile isDigit = digits := takeWhile_append hdigits (stopsAt_path hpath)
    have hafter : chars "65616" = digits ++ pathText := hafter
    rw [← hafter] at htake
    rw [← htake] at hvalue
    exact absurd hvalue (by decide)

end AmqOs.Network
