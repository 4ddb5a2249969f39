import AmqOs.Lib.Decimal
import AmqOs.Lib.Loop
import AmqOs.Lib.Scan
import AmqOs.Network.Addresses
import AmqOs.Network.Dhcp

/-!
# The HTTP client

The model of `http.c` and of the rest of `tcp.c`: parsing of the URL, the request, the buffer of the response, and `http_get`
with the calls of `tcp_connect`, `tcp_send` and `tcp_close` to their end. What happens outside is an `HttpEnv`: the answer of
`dns_resolve`, the segments that a poll of the network card delivers, and whether a packet can be sent. Polls and packets are
numbered; what is received while a packet is sent is delivered as by a poll.
-/

set_option autoImplicit false

namespace AmqOs.Network

open AmqOs.Lib CString

/-- The characters of a literal. -/
def lit (s : String) : List UInt8 := s.toList.map fun c => UInt8.ofNat c.toNat

def chars (s : String) : CString := CString.ofBytes (lit s)

/-! ## `parse_url` -/

theorem slash_ne_zero : (47 : UInt8) ≠ 0 := by decide

/-- `'/'`. -/
def slash : CChar := ⟨47, slash_ne_zero⟩

/-- `':'`. -/
def colon : CChar := ⟨58, by decide⟩

/-- `STRNCMP(ptr, literal, n) == 0` with the length of the literal. -/
def hasPrefix (literal : String) (ptr : CString) : Bool := (lit literal).isPrefixOf (ptr.map Subtype.val)

/-- The URL behind `http://` or `https://`. -/
def afterScheme (url : CString) : CString :=
  if hasPrefix "http://" url then url.drop 7 else if hasPrefix "https://" url then url.drop 8 else url

/-- A character of a host. -/
def isHostChar (c : CChar) : Bool := c != slash && c != colon

/-- The loop over the digits of the port. -/
def parsePort : UInt16 → CString → UInt16 × CString
  | port, [] => (port, [])
  | port, c :: ptr =>
    if isDigit c then parsePort (port * 10 + UInt16.ofNat (digitVal c)) ptr else (port, c :: ptr)

/-- The path. -/
def parsePath (ptr : CString) : CString :=
  if ptr = [] then [slash]
  else if ptr = [slash] then [slash]
  else if ptr.head? = some slash then ptr.take 255
  else [slash]

/-- `parse_url`: host, path and port. -/
def parseUrl (url : CString) : Option (CString × CString × UInt16) :=
  let (host, ptr) := scan isHostChar 255 (afterScheme url)
  if host = [] then none
  else if ptr.head? = some colon then
    let (port, ptr) := parsePort 0 (ptr.drop 1)
    if port = 0 || port.toNat > 65535 then none else some (host, parsePath ptr, port)
  else some (host, parsePath ptr, 80)

/-! ## The request -/

/-- `for (int i = 0; s[i] != '\0' && pos < 1000; i++) request[pos++] = s[i];` -/
def pushAll (request s : List UInt8) : List UInt8 := request ++ s.take (1000 - request.length)

/-- The request that `http_get` builds. -/
def buildRequest (host path : CString) : List UInt8 :=
  let request := pushAll (lit "GET ") (path.map Subtype.val) ++ lit " " ++ lit "HTTP/1.1" ++ lit "\r\n" ++ lit "Host: "
  let request := pushAll request (host.map Subtype.val) ++ lit "\r\n"
  let request := pushAll request (lit "User-Agent: CustomOS/1.0\r\n")
  let request := pushAll request (lit "Accept: */*\r\n")
  pushAll request (lit "Connection: close\r\n") ++ lit "\r\n"

/-- The bytes at `i` are those of the literal. -/
def matchesAt (request : List UInt8) (i : Nat) (literal : List UInt8) : Bool := literal.isPrefixOf (request.drop i)

/-- The end of the request line. -/
def requestLineEnd (request : List UInt8) : Option Nat :=
  firstFrom 0 (request.length - 1) fun i => matchesAt request i (lit "\r\n")

/-- `validate_http_request`: the number of errors. A missing `Host` header is only printed. -/
def validateHttpRequest (request : List UInt8) : Nat :=
  (if request.length < 4 || !matchesAt request 0 (lit "GET ") then 1 else 0) +
    (match requestLineEnd request with
      | none => 1
      | some lineEnd =>
        if lineEnd > 8 && (firstFrom 0 (lineEnd - 8 + 1) fun i => matchesAt request i (lit "HTTP")).isNone then 1 else 0) +
    (if request.length ≥ 4 && !matchesAt request (request.length - 4) (lit "\r\n\r\n") then 1 else 0) +
    (if (firstFrom 0 (request.length - 1) fun i => byteAt request i == 0).isSome then 1 else 0)

/-! ## The response -/

/-- `http_response_buffer`, and `http_response_len`. -/
structure HttpResponse where
  buffer : Mem
  len : Nat

def httpResponseMax : Nat := 16384

/-- The value of an `int`. -/
def toInt32 (n : Nat) : Int := Int.bmod n (2 ^ 32)

/-- `http_response_buffer[http_response_len++] = b` -/
def HttpResponse.push (r : HttpResponse) (b : UInt8) : HttpResponse := ⟨Function.update r.buffer r.len b, r.len + 1⟩

/-- `http_tcp_data_received`, with `data` and `len` as a list. -/
def httpTcpDataReceived (r : HttpResponse) (data : List UInt8) : HttpResponse :=
  if toInt32 (r.len + data.length) < httpResponseMax then forUpTo (fun i r => r.push (byteAt data i)) data.length r
  else forUpTo (fun i r => r.push (byteAt data i)) (httpResponseMax - r.len) r

/-! ## Sockets -/

/-- A segment in memory. -/
structure Segment where
  srcIp : UInt32
  mem : Mem
  data : Nat
  length : UInt16

/-- What the client cannot know. -/
structure HttpEnv where
  /-- The answer of `dns_resolve`. -/
  dns : CString → Option UInt32
  /-- The segments that poll `n` delivers. -/
  received : Nat → List Segment
  /-- Whether the packet that is sent at poll `n` is sent. -/
  sends : Nat → Bool

/-- The TCP sockets, the response, and the number of polls so far. -/
structure HttpState where
  sockets : Fin 16 → TcpSocket
  nextPort : UInt16
  response : HttpResponse
  polls : Nat

/-- The bytes that `tcp_receive` hands over. -/
def handOver (r : HttpResponse) (events : List (Event Unit)) : HttpResponse :=
  events.foldl (fun r event =>
    match event with
    | .httpTcpDataReceived _ bytes => httpTcpDataReceived r bytes
    | _ => r) r

def receiveSegment (st : HttpState) (seg : Segment) : HttpState :=
  let (sockets, events) := tcpReceive st.sockets seg.mem seg.srcIp seg.data seg.length
  { st with sockets := sockets, response := handOver st.response events }

/-- `e1000_interrupt_handler`. -/
def poll (env : HttpEnv) (st : HttpState) : HttpState :=
  let st' := (env.received st.polls).foldl receiveSegment st
  { st' with polls := st.polls + 1 }

/-- `n` polls. -/
def pollMany (env : HttpEnv) : Nat → HttpState → HttpState
  | 0, st => st
  | n + 1, st => pollMany env n (poll env st)

/-- Something is written to socket `i`. -/
def HttpState.modify (st : HttpState) (i : Fin 16) (f : TcpSocket → TcpSocket) : HttpState :=
  { st with sockets := Function.update st.sockets i (f (st.sockets i)) }

/-- `tcp_send_packet`: whether it returns 0. -/
def tcpSendPacketCall (env : HttpEnv) (st : HttpState) : Bool × HttpState := (env.sends st.polls, poll env st)

/-- `sock->state = state` -/
def setState (state : TcpState) (sock : TcpSocket) : TcpSocket := { sock with state := state }

/-- `sock->seq_num += n` -/
def advanceSeq (n : Nat) (sock : TcpSocket) : TcpSocket := { sock with seqNum := sock.seqNum + UInt32.ofNat n }

/-- The loop of `tcp_connect`: whether the socket is established after one of `n` polls. -/
def awaitEstablished (env : HttpEnv) (i : Fin 16) : Nat → HttpState → Bool × HttpState
  | 0, st => (false, st)
  | n + 1, st =>
    let st := poll env st
    if (st.sockets i).state = .established then (true, st) else awaitEstablished env i n st

/-- `tcp_connect`, on a socket that is closed: whether it returns 0. -/
def tcpConnectCall (env : HttpEnv) (i : Fin 16) (destIp : UInt32) (destPort : UInt16) (st : HttpState) : Bool × HttpState :=
  if (st.sockets i).state = .closed then
    let (sent, st) := tcpSendPacketCall env (st.modify i fun sock => (tcpConnect sock destIp destPort : _ × List (Event Unit)).1)
    if sent then
      let (connected, st) := awaitEstablished env i (5000 * 100) (st.modify i (advanceSeq 1))
      if connected then (true, st) else (false, st.modify i (setState .closed))
    else (false, st.modify i (setState .closed))
  else (false, st)

/-- `tcp_send`: whether it returns 0. -/
def tcpSendCall (env : HttpEnv) (i : Fin 16) (length : Nat) (st : HttpState) : Bool × HttpState :=
  if (st.sockets i).state = .established then
    let (sent, st) := tcpSendPacketCall env st
    if sent then (true, st.modify i (advanceSeq length)) else (false, st)
  else (false, st)

/-- The loop of `tcp_close`, with 10 polls in a round. -/
def awaitClosed (env : HttpEnv) (i : Fin 16) : Nat → HttpState → HttpState
  | 0, st => st
  | n + 1, st =>
    let st := pollMany env 10 st
    if (st.sockets i).state = .closed then st else awaitClosed env i n st

/-- `tcp_close`. -/
def tcpCloseCall (env : HttpEnv) (i : Fin 16) (st : HttpState) : HttpState :=
  let st :=
    if (st.sockets i).state = .established then
      (tcpSendPacketCall env (st.modify i fun sock => (tcpClose sock : _ × List (Event Unit)).1)).2.modify i (advanceSeq 1)
    else st
  (awaitClosed env i 1000 st).modify i fun sock => { sock with inUse := false, state := .closed }

/-- `tcp_socket`. -/
def tcpSocketCall (st : HttpState) : Option (Fin 16) × HttpState :=
  let (found, sockets, nextPort) := tcpSocket st.sockets st.nextPort
  (found, { st with sockets := sockets, nextPort := nextPort })

/-! ## `http_get` -/

/-- The rounds of 50 polls in which the response is awaited. -/
def awaitResponse (env : HttpEnv) : Nat → Nat → Nat → HttpState → HttpState
  | 0, _, _, st => st
  | n + 1, noDataCount, lastLen, st =>
    let st := pollMany env 50 st
    if st.response.len > lastLen then awaitResponse env n 0 st.response.len st
    else if noDataCount + 1 > 1000 && st.response.len > 0 then st
    else awaitResponse env n (noDataCount + 1) lastLen st

/-- `http_get`: the bytes that are copied to the output, or `none` for -1. -/
def httpGet (env : HttpEnv) (url : CString) (maxLen : Nat) (st : HttpState) : Option (List UInt8) × HttpState :=
  match parseUrl url with
  | none => (none, st)
  | some (host, path, port) =>
    let st := poll env st
    match env.dns host with
    | none => (none, st)
    | some ip =>
      match tcpSocketCall st with
      | (none, st) => (none, st)
      | (some i, st) =>
        let (connected, st) := tcpConnectCall env i ip port { st with response := { st.response with len := 0 } }
        if connected then
          let (sent, st) := tcpSendCall env i (buildRequest host path).length st
          if sent then
            let st := tcpCloseCall env i (awaitResponse env 10000 0 0 st)
            if st.response.len = 0 then (none, st)
            else (some (st.response.buffer.slice 0 (min st.response.len maxLen)), st)
          else (none, tcpCloseCall env i st)
        else (none, st)

end AmqOs.Network
