import AmqOs.Lib.Guarded
import AmqOs.Network.Addresses
import AmqOs.Network.Dhcp

/-!
# The DNS client

The model of `dns.c`. `dns_handler` is given the bytes of a datagram and reads them one by one: a read outside of them goes
wrong, and so does a loop that does not end. Its early returns leave the variables as they are then. `dns_resolve` sends the
query up to three times and polls the network card in between.
-/

set_option autoImplicit false

namespace AmqOs.Network

open AmqOs.Lib Guarded

/-- The variables of `dns.c`. -/
structure Dns where
  server : UInt32
  resolvedIp : UInt32
  waiting : Bool
  queryId : UInt16
  deriving DecidableEq

/-- What a handler with variables `σ` computes from the bytes of a datagram; the code is what an early return leaves. -/
abbrev Reader (σ α : Type) := Guarded σ α

variable {σ : Type}

/-- `data[i]`. -/
def readByte (data : List UInt8) (i : Nat) : Reader σ UInt8 := require (i < data.length) (byteAt data i)

/-- `(data[i] << 8) | data[i+1]`. -/
def readBe16 (data : List UInt8) (i : Nat) : Reader σ UInt16 := do
  let a ← readByte data i
  let b ← readByte data (i + 1)
  pure ((a.toUInt16 <<< 8) ||| b.toUInt16)

/-- Four bytes, the high one first or last. -/
def readBytes4 (data : List UInt8) (i : Nat) (word : List UInt8 → Nat → UInt32) : Reader σ UInt32 := do
  let _ ← readByte data i
  let _ ← readByte data (i + 1)
  let _ ← readByte data (i + 2)
  let _ ← readByte data (i + 3)
  pure (word data i)

/-! ## `dns_handler` -/

/-- The first 32 bytes are printed. -/
def printFirst (data : List UInt8) : Reader Dns Unit :=
  forLoop (fun i _ => do
    let _ ← readByte data i
    pure ()) (min 32 data.length) ()

/-- The loop over the labels of a question, which jumps over a label. -/
def skipQuestionLabels (data : List UInt8) : Nat → Nat → Reader Dns Nat
  | 0, _ => (none : Option (Except Dns Nat))
  | fuel + 1, ptr =>
    if ptr < data.length then do
      let b ← readByte data ptr
      if b = 0 then pure ptr
      else if b &&& 0xC0 = 0xC0 then pure (ptr + 2)
      else skipQuestionLabels data fuel (ptr + (b.toNat + 1))
    else pure ptr

/-- `if (ptr < end && *ptr == 0) ptr++;` -/
def skipZero (data : List UInt8) (ptr : Nat) : Reader Dns Nat :=
  if ptr < data.length then do
    let b ← readByte data ptr
    pure (if b = 0 then ptr + 1 else ptr)
  else pure ptr

/-- The loop over the questions. -/
def skipQuestions (data : List UInt8) : Nat → Nat → Reader Dns Nat
  | 0, ptr => pure ptr
  | q + 1, ptr =>
    if ptr < data.length then do
      let ptr ← skipQuestionLabels data (data.length + 1) ptr
      let ptr ← skipZero data ptr
      skipQuestions data q (ptr + 4)
    else pure ptr

/-- A label is printed, up to the end of the datagram. -/
def printLabel (data : List UInt8) : Nat → Nat → Reader Dns Nat
  | 0, ptr => pure ptr
  | n + 1, ptr =>
    if ptr < data.length then do
      let _ ← readByte data ptr
      printLabel data n (ptr + 1)
    else pure ptr

/-- The loop over the labels of an answer. -/
def skipAnswerLabels (data : List UInt8) : Nat → Nat → Reader Dns Nat
  | 0, _ => (none : Option (Except Dns Nat))
  | fuel + 1, ptr =>
    if ptr < data.length then do
      let b ← readByte data ptr
      if b = 0 then pure ptr
      else if b &&& 0xC0 = 0xC0 then pure (ptr + 2)
      else do
        let ptr ← printLabel data b.toNat (ptr + 1)
        -- whether a dot is printed
        let _ ← skipZero data ptr
        skipAnswerLabels data fuel ptr
    else pure ptr

/-- The name of an answer. -/
def skipAnswerName (data : List UInt8) (ptr : Nat) : Reader Dns Nat := do
  let b ← readByte data ptr
  if b &&& 0xC0 = 0xC0 then pure (ptr + 2)
  else do
    let ptr ← skipAnswerLabels data (data.length + 1) ptr
    skipZero data ptr

/-- The loop over the answers. -/
def readAnswers (data : List UInt8) : Nat → Nat → Dns → Reader Dns Dns
  | 0, _, s => pure s
  | a + 1, ptr, s =>
    if ptr < data.length then do
      let ptr ← skipAnswerName data ptr
      if ptr + 10 > data.length then pure s
      else do
        let type ← readBe16 data ptr
        let _class ← readBe16 data (ptr + 2)
        let _ttl ← readBytes4 data (ptr + 4) be32
        let rdlen ← readBe16 data (ptr + 8)
        let ptr := ptr + 10
        if ptr + rdlen.toNat > data.length then pure s
        else if type = 1 ∧ rdlen = 4 then do
          let ip ← readBytes4 data ptr le32
          throw { s with resolvedIp := ip, waiting := false }
        else readAnswers data a (ptr + rdlen.toNat) s
    else pure s

/-- `dns_handler`, which is given the bytes of a datagram. -/
def dnsHandler (s : Dns) (data : List UInt8) : Reader Dns Dns :=
  if data.length < 12 then throw s
  else do
    printFirst data
    let id ← readBe16 data 0
    let flags ← readBe16 data 2
    let qdcount ← readBe16 data 4
    let ancount ← readBe16 data 6
    let _nscount ← readBe16 data 8
    let _arcount ← readBe16 data 10
    if id ≠ s.queryId then throw s
    else if flags &&& 0x000F ≠ 0 then throw { s with waiting := false }
    else if flags &&& 0x8000 = 0 then throw s
    else if ancount = 0 then throw { s with waiting := false }
    else do
      let ptr ← skipQuestions data qdcount.toNat 12
      if ptr ≥ data.length then throw { s with waiting := false }
      else do
        let s ← readAnswers data ancount.toNat ptr s
        pure (if s.resolvedIp = 0 then { s with waiting := false } else s)

/-! ## `dns_resolve` -/

/-- The loop of `dns_encode_name`, with the length byte of a label before its characters. -/
def encodeLabels : Nat → CString → List UInt8
  | 0, _ => []
  | _ + 1, [] => []
  | fuel + 1, c :: ptr =>
    let label := (c :: ptr).takeWhile (· != dot)
    let rest := (c :: ptr).dropWhile (· != dot)
    UInt8.ofNat label.length :: label.map Subtype.val ++ encodeLabels fuel (rest.drop 1)

/-- `dns_encode_name`. -/
def dnsEncodeName (hostname : CString) : List UInt8 := encodeLabels hostname.length hostname ++ [0]

/-- The query: a header, the name, and the type and the class of the question. -/
def dnsQuery (queryId : UInt16) (hostname : CString) : List UInt8 :=
  [(queryId >>> 8).toUInt8, queryId.toUInt8, 0x01, 0x00, 0x00, 0x01, 0x00, 0x00, 0x00, 0x00, 0x00, 0x00] ++
    dnsEncodeName hostname ++ [0x00, 0x01, 0x00, 0x01]

/-- Datagrams arrive. -/
def dnsReceive (s : Dns) (datagrams : List (List UInt8)) : Option Dns :=
  datagrams.foldlM (fun s data => final (dnsHandler s data)) s

/-- The polls of one attempt; poll `n` delivers the datagrams `polls n`. The result is the number of the next poll, and the
variables. -/
def dnsWait (polls : Nat → List (List UInt8)) : Nat → Nat → Dns → Option (Nat × Dns)
  | 0, n, s => some (n, s)
  | fuel + 1, n, s =>
    if s.waiting then do
      let s ← dnsReceive s (polls n)
      dnsWait polls fuel (n + 1) s
    else some (n, s)

/-- The attempts that are left: what they send to the server, and the variables after them. While the query is sent,
`polls n` arrives, too. -/
def dnsAttempts (polls : Nat → List (List UInt8)) (query : List UInt8) : Nat → Nat → Dns → Option (List (List UInt8) × Dns)
  | 0, _, s => some ([], s)
  | attempt + 1, n, s => do
    let s ← dnsReceive s (polls n)
    let (n, s) ← dnsWait polls (2000 * 100) (n + 1) s
    if s.waiting then do
      let (sent, s) ← dnsAttempts polls query attempt n s
      some (query :: sent, s)
    else some ([query], s)

/-- `dns_resolve`: the address, what is sent to port 53 of the server, and the variables. -/
def dnsResolve (s : Dns) (hostname : CString) (polls : Nat → List (List UInt8)) :
    Option (Option UInt32 × List (List UInt8) × Dns) :=
  if isIpAddress hostname then some (some (netParseIp hostname), [], s)
  else do
    let server := if s.server = 0 then 0x08080808 else s.server
    let queryId := s.queryId + 1
    let (sent, s) ← dnsAttempts polls (dnsQuery queryId hostname) 3 0 ⟨server, 0, true, queryId⟩
    some (if s.resolvedIp = 0 then none else some s.resolvedIp, sent, s)

end AmqOs.Network
