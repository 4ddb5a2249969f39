import AmqOs.Network.HttpDefs

/-!
# The request

`http_get` appends the parts of the request under guards `pos < 1000`, and `validate_http_request` looks at the bytes again.
A host and a path from `parse_url` have at most 255 bytes, so that no guard cuts anything (`buildRequest_eq`), and a request of
this form is found valid when the path contains no CR (`validateHttpRequest_eq_zero`).
-/

set_option autoImplicit false

namespace AmqOs.Network

open AmqOs.Lib CString

/-- The request line, the `Host` header, the three fixed headers, and the empty line. -/
def requestText (host path : CString) : List UInt8 :=
  lit "GET " ++ path.map Subtype.val ++ lit " HTTP/1.1\r\n" ++ lit "Host: " ++ host.map Subtype.val ++ lit "\r\n" ++
    lit "User-Agent: CustomOS/1.0\r\n" ++ lit "Accept: */*\r\n" ++ lit "Connection: close\r\n" ++ lit "\r\n"

/-! ## The builder -/

section Build

variable {url host path : CString} {port : UInt16}

theorem length_parsePath_le (ptr : CString) : (parsePath ptr).length ≤ 255 := by
  unfold parsePath
  split_ifs
  · decide
  · decide
  · exact List.length_take_le _ _
  · decide

/-- The parts of a URL fit in their arrays. -/
theorem length_parseUrl_le (h : parseUrl url = some (host, path, port)) : host.length ≤ 255 ∧ path.length ≤ 255 := by
  have hscan := length_scan_le (p := isHostChar) 255 (afterScheme url)
  unfold parseUrl at h
  dsimp only at h
  split_ifs at h
  all_goals
    injection h with h
    injection h with hhost h
    injection h with hpath _
    exact ⟨hhost ▸ hscan, hpath ▸ length_parsePath_le _⟩

theorem pushAll_eq {request s : List UInt8} (h : request.length + s.length ≤ 1000) : pushAll request s = request ++ s := by
  rw [pushAll, List.take_of_length_le (by omega)]

/-- No guard cuts anything. -/
theorem buildRequest_eq (hhost : host.length ≤ 255) (hpath : path.length ≤ 255) :
    buildRequest host path = requestText host path := by
  unfold buildRequest requestText
  have h1 : pushAll (lit "GET ") (path.map Subtype.val) = lit "GET " ++ path.map Subtype.val := by
    apply pushAll_eq
    simp [lit]
    omega
  dsimp only
  rw [h1]
  rw [pushAll_eq (s := host.map Subtype.val) (by simp [lit]; omega)]
  rw [pushAll_eq (s := lit "User-Agent: CustomOS/1.0\r\n") (by simp [lit]; omega)]
  rw [pushAll_eq (s := lit "Accept: */*\r\n") (by simp [lit]; omega)]
  rw [pushAll_eq (s := lit "Connection: close\r\n") (by simp [lit]; omega)]
  have hline : lit " HTTP/1.1\r\n" = lit " " ++ (lit "HTTP/1.1" ++ lit "\r\n") := by decide
  rw [hline]
  simp only [List.append_assoc]

theorem length_requestText (host path : CString) : (requestText host path).length = path.length + host.length + 83 := by
  simp [requestText, lit]
  omega

end Build

/-! ## The validator -/

section Validate

variable {request front literal rest path : List UInt8} {b : UInt8} {i n : Nat} {p : Nat → Bool}

theorem matchesAt_append (front literal rest : List UInt8) :
    matchesAt (front ++ literal ++ rest) front.length literal = true := by
  rw [matchesAt, List.append_assoc, List.drop_left, List.isPrefixOf_iff_prefix]
  exact List.prefix_append _ _

/-- What is found starts with its first byte. -/
theorem getElem_of_matchesAt (h : matchesAt request i (b :: rest) = true) : request[i]? = some b := by
  rw [matchesAt, List.isPrefixOf_iff_prefix] at h
  obtain ⟨t, ht⟩ := h
  have hhead := congrArg List.head? ht
  rw [List.head?_drop] at hhead
  exact hhead.symm

theorem firstFrom_ne_none (hi : i < n) (hp : p i = true) : firstFrom 0 n p ≠ none := by
  intro h
  have hfalse := firstFrom_eq_none.mp h i (Nat.zero_le i) hi
  rw [hp] at hfalse
  cases hfalse

/-- The first line break is behind a front without CR. -/
theorem requestLineEnd_append (rest : List UInt8) (hfront : (13 : UInt8) ∉ front) :
    requestLineEnd (front ++ lit "\r\n" ++ rest) = some front.length := by
  unfold requestLineEnd
  rw [firstFrom_eq_some]
  refine ⟨Nat.zero_le _, ?_, matchesAt_append _ _ _, ?_⟩
  · simp [lit]
  · intro j _ hj
    rw [Bool.eq_false_iff]
    intro hmatch
    have hbyte : (front ++ lit "\r\n" ++ rest)[j]? = some 13 := getElem_of_matchesAt hmatch
    rw [List.append_assoc, List.getElem?_append_left hj] at hbyte
    exact hfront (List.mem_of_getElem? hbyte)

/-- **What the validator accepts**: a path without CR, and no NUL anywhere. -/
theorem validateHttpRequest_eq_zero (hcr : (13 : UInt8) ∉ path) (hpath : (0 : UInt8) ∉ path) (hrest : (0 : UInt8) ∉ rest) :
    validateHttpRequest (lit "GET " ++ path ++ lit " HTTP/1.1" ++ lit "\r\n" ++ rest ++ lit "\r\n\r\n") = 0 := by
  set request := lit "GET " ++ path ++ lit " HTTP/1.1" ++ lit "\r\n" ++ rest ++ lit "\r\n\r\n" with hrequest
  have hlen : request.length = path.length + rest.length + 19 := by
    simp [hrequest, lit]
    omega
  have hget : matchesAt request 0 (lit "GET ") = true := by
    have h := matchesAt_append [] (lit "GET ") (path ++ lit " HTTP/1.1" ++ lit "\r\n" ++ rest ++ lit "\r\n\r\n")
    simpa only [hrequest, List.nil_append, List.length_nil, List.append_assoc] using h
  have hline : requestLineEnd request = some (path.length + 13) := by
    have hfront : (13 : UInt8) ∉ lit "GET " ++ path ++ lit " HTTP/1.1" := by
      simp [lit, hcr]
    have h := requestLineEnd_append (rest ++ lit "\r\n\r\n") hfront
    rw [← List.append_assoc] at h
    rw [h]
    simp [lit]
  have hhttp : matchesAt request (path.length + 5) (lit "HTTP") = true := by
    have h := matchesAt_append (lit "GET " ++ path ++ lit " ") (lit "HTTP")
      (lit "/1.1" ++ lit "\r\n" ++ rest ++ lit "\r\n\r\n")
    have hversion : lit " HTTP/1.1" = lit " " ++ lit "HTTP" ++ lit "/1.1" := by decide
    have hat : (lit "GET " ++ path ++ lit " ").length = path.length + 5 := by
      simp [lit]
    rw [hat] at h
    simpa only [hrequest, hversion, List.append_assoc] using h
  have hend : matchesAt request (request.length - 4) (lit "\r\n\r\n") = true := by
    have h := matchesAt_append (lit "GET " ++ path ++ lit " HTTP/1.1" ++ lit "\r\n" ++ rest) (lit "\r\n\r\n") []
    have hat : (lit "GET " ++ path ++ lit " HTTP/1.1" ++ lit "\r\n" ++ rest).length = request.length - 4 := by
      rw [hlen]
      simp [lit]
      omega
    rw [hat, List.append_nil] at h
    exact h
  have hnul : (0 : UInt8) ∉ request := by
    simp [hrequest, lit, hpath, hrest]
  have hnulFree : (firstFrom 0 (request.length - 1) fun i => byteAt request i == 0) = none := by
    rw [firstFrom_eq_none]
    intro j _ hj
    rw [beq_eq_false_iff_ne, byteAt, List.getD_eq_getElem request 0 (show j < request.length by omega)]
    exact fun h0 => hnul (h0 ▸ List.getElem_mem _)
  have hfound : (firstFrom 0 (path.length + 5 + 1) fun i => matchesAt request i (lit "HTTP")) ≠ none :=
    firstFrom_ne_none (Nat.lt_succ_self _) hhttp
  have hfour : ¬ request.length < 4 := by omega
  simp [validateHttpRequest, hget, hline, hfound, hend, hnulFree, hfour]

end Validate

/-- The request is of the form that is valid. -/
theorem validate_requestText {host path : CString} (hcr : ∀ c ∈ path, c.val ≠ 13) :
    validateHttpRequest (requestText host path) = 0 := by
  have hnul : ∀ s : CString, (0 : UInt8) ∉ s.map Subtype.val := by
    intro s hmem
    obtain ⟨c, -, hc⟩ := List.mem_map.mp hmem
    exact c.property hc
  have hpath : (13 : UInt8) ∉ path.map Subtype.val := by
    intro hmem
    obtain ⟨c, hin, hc⟩ := List.mem_map.mp hmem
    exact hcr c hin hc
  have hline : lit " HTTP/1.1\r\n" = lit " HTTP/1.1" ++ lit "\r\n" := by decide
  have hlast : lit "Connection: close\r\n" ++ lit "\r\n" = lit "Connection: close" ++ lit "\r\n\r\n" := by decide
  have hrest : (0 : UInt8) ∉ lit "Host: " ++ host.map Subtype.val ++ lit "\r\n" ++ lit "User-Agent: CustomOS/1.0\r\n" ++
      lit "Accept: */*\r\n" ++ lit "Connection: close" := by
    have hhost := hnul host
    simp only [List.mem_append, not_or]
    refine ⟨⟨⟨⟨⟨?_, hhost⟩, ?_⟩, ?_⟩, ?_⟩, ?_⟩ <;> decide
  have hvalid := validateHttpRequest_eq_zero hpath (hnul path) hrest
  rw [requestText, hline]
  simpa only [List.append_assoc, hlast] using hvalid

/-- **The request.** For a URL that is accepted, the request is the request line, the `Host` header, the fixed headers and the
empty line, it fits in its array, and no error is found in it. Of the host nothing is asked; the path must not contain CR. -/
theorem buildRequest_valid {url host path : CString} {port : UInt16} (h : parseUrl url = some (host, path, port))
    (hcr : ∀ c ∈ path, c.val ≠ 13) :
    buildRequest host path = requestText host path ∧ (buildRequest host path).length ≤ 1024 ∧
      validateHttpRequest (buildRequest host path) = 0 := by
  obtain ⟨hhost, hpath⟩ := length_parseUrl_le h
  rw [buildRequest_eq hhost hpath, length_requestText]
  exact ⟨rfl, by omega, validate_requestText hcr⟩

theorem buildRequest_valid_index :
    buildRequest (chars "a.b") (chars "/i") = requestText (chars "a.b") (chars "/i") ∧
      (buildRequest (chars "a.b") (chars "/i")).length ≤ 1024 ∧
      validateHttpRequest (buildRequest (chars "a.b") (chars "/i")) = 0 :=
  @buildRequest_valid (chars "http://a.b/i") _ _ 80 (by decide +kernel) (by decide +kernel)

end AmqOs.Network
