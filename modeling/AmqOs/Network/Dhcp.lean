import AmqOs.Lib.Loop
import AmqOs.Network.NetDefs

/-!
# The DHCP client

`dhcp_rx` writes the address of a reply into `offer_ip` before it looks at the rest, and each option into its variable as it
is parsed; `dhcp_get_ip` reads the variables when it finds `got_ack` set. What it configures is therefore the last word on
each field of all the datagrams that were delivered (`dhcpGetIp_config`), from whichever datagram, and it agrees with one
ACK exactly when these last words do (`dhcpGetIp_agreement_iff`).
-/

set_option autoImplicit false

namespace AmqOs.Network

open Lib

/-! ## The code -/

/-- The variables of `dhcp.c`. -/
structure Dhcp where
  xid : UInt32
  gotOffer : Bool
  gotAck : Bool
  offerIp : UInt32
  serverIp : UInt32
  mask : UInt32
  gw : UInt32
  dns : UInt32

def byteAt (data : List UInt8) (i : Nat) : UInt8 := data.getD i 0

/-- `data[i] | (data[i+1] << 8) | (data[i+2] << 16) | (data[i+3] << 24)`. -/
def le32 (data : List UInt8) (i : Nat) : UInt32 :=
  (byteAt data i).toUInt32 ||| ((byteAt data (i + 1)).toUInt32 <<< 8) ||| ((byteAt data (i + 2)).toUInt32 <<< 16) |||
    ((byteAt data (i + 3)).toUInt32 <<< 24)

/-- `(data[i] << 24) | (data[i+1] << 16) | (data[i+2] << 8) | data[i+3]`. -/
def be32 (data : List UInt8) (i : Nat) : UInt32 :=
  ((byteAt data i).toUInt32 <<< 24) ||| ((byteAt data (i + 1)).toUInt32 <<< 16) |||
    ((byteAt data (i + 2)).toUInt32 <<< 8) ||| (byteAt data (i + 3)).toUInt32

/-- The option at `i`; the second component is `msg_type`. -/
def dhcpOption (data : List UInt8) (i : Nat) (s : Dhcp × UInt8) : Dhcp × UInt8 :=
  let opt := byteAt data i
  let olen := byteAt data (i + 1)
  if opt = 53 ∧ olen = 1 then (s.1, byteAt data (i + 2))
  else if opt = 54 ∧ olen = 4 then ({ s.1 with serverIp := le32 data (i + 2) }, s.2)
  else if opt = 1 ∧ olen = 4 then ({ s.1 with mask := le32 data (i + 2) }, s.2)
  else if opt = 3 ∧ olen ≥ 4 then ({ s.1 with gw := le32 data (i + 2) }, s.2)
  else if opt = 6 ∧ olen ≥ 4 then ({ s.1 with dns := le32 data (i + 2) }, s.2)
  else s

/-- The loop over the options. -/
def dhcpOptions (data : List UInt8) : Nat → Nat → Dhcp × UInt8 → Dhcp × UInt8
  | 0, _, s => s
  | fuel + 1, i, s =>
    if i < data.length - 2 ∧ byteAt data i ≠ 0xFF then
      if byteAt data i = 0 then dhcpOptions data fuel (i + 1) s
      else if i + 2 + (byteAt data (i + 1)).toNat > data.length then s
      else dhcpOptions data fuel (i + 2 + (byteAt data (i + 1)).toNat) (dhcpOption data i s)
    else s

/-- The magic cookie. -/
def HasCookie (data : List UInt8) : Prop :=
  byteAt data 236 = 0x63 ∧ byteAt data 237 = 0x82 ∧ byteAt data 238 = 0x53 ∧ byteAt data 239 = 0x63

instance (data : List UInt8) : Decidable (HasCookie data) := inferInstanceAs (Decidable (_ ∧ _))

/-- `dhcp_rx`. -/
def dhcpRx (s : Dhcp) (data : List UInt8) : Dhcp :=
  if data.length < 244 then s
  else if byteAt data 0 ≠ 2 then s
  else if be32 data 4 ≠ s.xid then s
  else
    let s := { s with offerIp := le32 data 16 }
    if ¬ HasCookie data then s
    else
      let (s, msgType) := dhcpOptions data data.length 240 (s, 0)
      if msgType = 2 then { s with gotOffer := true }
      else if msgType = 5 then { s with gotAck := true }
      else s

/-- What is configured: by `net_set_config`, and by `dns_set_server`. -/
structure DhcpConfig where
  ip : UInt32
  netmask : UInt32
  gateway : UInt32
  dnsServer : UInt32
  deriving DecidableEq

/-- Three times 2000 rounds of polls, until the flag is set. The polls of round `n` deliver `polls n`. The result is the
number of the next round. -/
def dhcpWait (flag : Dhcp → Bool) (polls : Nat → List (List UInt8)) : Nat → Nat → Dhcp → Option (Nat × Dhcp)
  | 0, _, _ => none
  | fuel + 1, n, s =>
    let s := (polls n).foldl dhcpRx s
    if flag s then some (n + 1, s) else dhcpWait flag polls fuel (n + 1) s

/-- `dhcp_get_ip`: what is configured when it returns 0, and the number of rounds of polls until then. -/
def dhcpGetIp (s : Dhcp) (polls : Nat → List (List UInt8)) : Option (DhcpConfig × Nat) :=
  match dhcpWait Dhcp.gotOffer polls 6000 0 ⟨s.xid + 1, false, false, 0, 0, 0, 0, 0⟩ with
  | none => none
  | some (n, s) =>
    -- the 100 polls before the request
    let s := (polls n).foldl dhcpRx s
    match dhcpWait Dhcp.gotAck polls 6000 (n + 1) s with
    | none => none
    | some (n, s) => some (⟨s.offerIp, s.mask, s.gw, if s.dns ≠ 0 then s.dns else s.gw⟩, n)

/-! ## What a datagram says -/

/-- An option of a datagram. -/
structure DhcpOption where
  code : UInt8
  value : List UInt8

/-- The options of the bytes after the cookie. Padding and options take at least a byte. -/
def optionsFrom : Nat → List UInt8 → List DhcpOption
  | fuel + 1, code :: olen :: rest =>
    if code = 0xFF then []
    else if code = 0 then optionsFrom fuel (olen :: rest)
    else if olen.toNat > rest.length then []
    else ⟨code, rest.take olen.toNat⟩ :: optionsFrom fuel (rest.drop olen.toNat)
  | _, _ => []

def optionsIn (data : List UInt8) : List DhcpOption := optionsFrom data.length (data.drop 240)

namespace DhcpOption

def messageType (o : DhcpOption) : Option UInt8 :=
  if o.code = 53 ∧ o.value.length = 1 then some (byteAt o.value 0) else none

def serverId (o : DhcpOption) : Option UInt32 :=
  if o.code = 54 ∧ o.value.length = 4 then some (le32 o.value 0) else none

def mask (o : DhcpOption) : Option UInt32 :=
  if o.code = 1 ∧ o.value.length = 4 then some (le32 o.value 0) else none

/-- The first of the routers. -/
def router (o : DhcpOption) : Option UInt32 :=
  if o.code = 3 ∧ 4 ≤ o.value.length then some (le32 o.value 0) else none

/-- The first of the name servers. -/
def nameServer (o : DhcpOption) : Option UInt32 :=
  if o.code = 6 ∧ 4 ≤ o.value.length then some (le32 o.value 0) else none

end DhcpOption

/-- A BOOTREPLY with the transaction id. -/
def IsReply (xid : UInt32) (data : List UInt8) : Prop := 244 ≤ data.length ∧ byteAt data 0 = 2 ∧ be32 data 4 = xid

instance (xid : UInt32) (data : List UInt8) : Decidable (IsReply xid data) := inferInstanceAs (Decidable (_ ∧ _))

def typeOf (data : List UInt8) : UInt8 := (lastWord DhcpOption.messageType (optionsIn data)).getD 0

/-- A BOOTREPLY with the transaction id, the cookie and message type ACK. -/
def IsAck (xid : UInt32) (data : List UInt8) : Prop := IsReply xid data ∧ HasCookie data ∧ typeOf data = 5

instance (xid : UInt32) (data : List UInt8) : Decidable (IsAck xid data) := inferInstanceAs (Decidable (_ ∧ _))

/-- The address that a datagram offers: every reply does, with or without a cookie. -/
def addressIn (xid : UInt32) (data : List UInt8) : Option UInt32 :=
  if IsReply xid data then some (le32 data 16) else none

/-- What a datagram says in the options that `f` reads. -/
def wordIn (f : DhcpOption → Option UInt32) (xid : UInt32) (data : List UInt8) : Option UInt32 :=
  if IsReply xid data ∧ HasCookie data then lastWord f (optionsIn data) else none

/-- The configuration that some datagrams state, the last one on each field. -/
def configOf (xid : UInt32) (ds : List (List UInt8)) : DhcpConfig :=
  let gw := (lastWord (wordIn DhcpOption.router xid) ds).getD 0
  let dns := (lastWord (wordIn DhcpOption.nameServer xid) ds).getD 0
  ⟨(lastWord (addressIn xid) ds).getD 0, (lastWord (wordIn DhcpOption.mask xid) ds).getD 0, gw,
    if dns ≠ 0 then dns else gw⟩

/-! ## One datagram -/

section Options

variable {β : Type} {data : List UInt8} {i : Nat} {s : Dhcp × UInt8}

/-- The option at `i`. -/
def optionAt (data : List UInt8) (i : Nat) : DhcpOption :=
  ⟨byteAt data i, (data.drop (i + 2)).take (byteAt data (i + 1)).toNat⟩

/-- Each option overwrites the variable it is about. -/
def applyOption (s : Dhcp × UInt8) (o : DhcpOption) : Dhcp × UInt8 :=
  ({ s.1 with
      serverIp := o.serverId.getD s.1.serverIp
      mask := o.mask.getD s.1.mask
      gw := o.router.getD s.1.gw
      dns := o.nameServer.getD s.1.dns }, o.messageType.getD s.2)

theorem length_optionAt (h : i + 2 + (byteAt data (i + 1)).toNat ≤ data.length) :
    (optionAt data i).value.length = (byteAt data (i + 1)).toNat := by
  simp only [optionAt, List.length_take, List.length_drop]
  omega

theorem byteAt_optionAt {k : Nat} (h : k < (byteAt data (i + 1)).toNat) :
    byteAt (optionAt data i).value k = byteAt data (i + 2 + k) := by
  rw [byteAt, List.getD_eq_getElem?_getD, optionAt, List.getElem?_take_of_lt h, List.getElem?_drop, byteAt,
    List.getD_eq_getElem?_getD]

theorem le32_optionAt (h : 4 ≤ (byteAt data (i + 1)).toNat) :
    le32 (optionAt data i).value 0 = le32 data (i + 2) := by
  simp only [le32]
  rw [byteAt_optionAt (by omega), byteAt_optionAt (by omega), byteAt_optionAt (by omega), byteAt_optionAt (by omega)]

/-- The code's option is the option of the datagram. -/
theorem dhcpOption_eq (h : i + 2 + (byteAt data (i + 1)).toNat ≤ data.length) :
    dhcpOption data i s = applyOption s (optionAt data i) := by
  have hlen := length_optionAt h
  have hcode : (optionAt data i).code = byteAt data i := rfl
  have hone : byteAt data (i + 1) = 1 ↔ (byteAt data (i + 1)).toNat = 1 := UInt8.toNat_inj.symm
  have hfour : byteAt data (i + 1) = 4 ↔ (byteAt data (i + 1)).toNat = 4 := UInt8.toNat_inj.symm
  have hmore : byteAt data (i + 1) ≥ 4 ↔ 4 ≤ (byteAt data (i + 1)).toNat := UInt8.le_iff_toNat_le
  have hbyte : (byteAt data (i + 1)).toNat = 1 → byteAt (optionAt data i).value 0 = byteAt data (i + 2) :=
    fun h1 => byteAt_optionAt (by omega)
  have hword : 4 ≤ (byteAt data (i + 1)).toNat → le32 (optionAt data i).value 0 = le32 data (i + 2) := le32_optionAt
  obtain ⟨s, t⟩ := s
  simp only [dhcpOption, applyOption, DhcpOption.messageType, DhcpOption.serverId, DhcpOption.mask, DhcpOption.router,
    DhcpOption.nameServer, hlen, hcode, hone, hfour, hmore]
  generalize (byteAt data (i + 1)).toNat = n at *
  split_ifs <;> simp_all

theorem applyOption_empty (s : Dhcp × UInt8) (code : UInt8) : applyOption s ⟨code, []⟩ = s := by
  simp [applyOption, DhcpOption.messageType, DhcpOption.serverId, DhcpOption.mask, DhcpOption.router, DhcpOption.nameServer]

/-- In two bytes there is no option that says anything. -/
theorem foldl_optionsFrom_short {l : List UInt8} (hl : l.length ≤ 2) (fuel : Nat) (s : Dhcp × UInt8) :
    (optionsFrom fuel l).foldl applyOption s = s := by
  match fuel, l with
  | 0, _ => rfl
  | _ + 1, [] => rfl
  | _ + 1, [_] => rfl
  | fuel + 1, [code, olen] =>
    have hrest : ∀ b, optionsFrom fuel [b] = [] ∧ optionsFrom fuel [] = [] := fun b => by cases fuel <;> exact ⟨rfl, rfl⟩
    simp only [optionsFrom, (hrest olen).1, List.take_nil, List.drop_nil, (hrest olen).2]
    split_ifs <;> simp [applyOption_empty]
  | _, _ :: _ :: _ :: _ => simp at hl

theorem drop_eq_byteAt_cons (h : i < data.length) : data.drop i = byteAt data i :: data.drop (i + 1) := by
  rw [List.drop_eq_getElem_cons h, byteAt, List.getD_eq_getElem?_getD, List.getElem?_eq_getElem h, Option.getD_some]

/-- The code's loop goes through the options of the datagram. -/
theorem dhcpOptions_eq (fuel : Nat) (i : Nat) (s : Dhcp × UInt8) :
    dhcpOptions data fuel i s = (optionsFrom fuel (data.drop i)).foldl applyOption s := by
  induction fuel generalizing i s with
  | zero => rfl
  | succ fuel ih =>
    by_cases hi : i < data.length - 2
    · have hdrop : data.drop i = byteAt data i :: byteAt data (i + 1) :: data.drop (i + 2) := by
        rw [drop_eq_byteAt_cons (by omega), drop_eq_byteAt_cons (by omega)]
      rw [dhcpOptions, hdrop, optionsFrom]
      by_cases hend : byteAt data i = 0xFF
      · simp [hend]
      rw [if_pos ⟨hi, hend⟩, if_neg hend]
      by_cases hpad : byteAt data i = 0
      · rw [if_pos hpad, if_pos hpad, ih, drop_eq_byteAt_cons (by omega)]
      rw [if_neg hpad, if_neg hpad, List.length_drop]
      by_cases hlen : i + 2 + (byteAt data (i + 1)).toNat > data.length
      · rw [if_pos hlen, if_pos (by omega)]
        rfl
      · rw [if_neg hlen, if_neg (by omega), ih, List.drop_drop, List.foldl_cons, dhcpOption_eq (by omega)]
        rfl
    · have hshort : (data.drop i).length ≤ 2 := by
        rw [List.length_drop]
        omega
      rw [foldl_optionsFrom_short hshort, dhcpOptions, if_neg fun h => hi h.1]

theorem foldl_applyOption (os : List DhcpOption) (s : Dhcp × UInt8) : os.foldl applyOption s =
    ({ s.1 with
        serverIp := (lastWord DhcpOption.serverId os).getD s.1.serverIp
        mask := (lastWord DhcpOption.mask os).getD s.1.mask
        gw := (lastWord DhcpOption.router os).getD s.1.gw
        dns := (lastWord DhcpOption.nameServer os).getD s.1.dns }, (lastWord DhcpOption.messageType os).getD s.2) := by
  induction os generalizing s with
  | nil => rfl
  | cons o os ih => simp only [List.foldl_cons, ih, getD_lastWord_cons, applyOption]

end Options

section Rx

variable {data : List UInt8} {s : Dhcp}

theorem dhcpRx_of_not_isReply (h : ¬ IsReply s.xid data) : dhcpRx s data = s := by
  unfold dhcpRx
  split_ifs with h1 h2 h3
  · rfl
  · rfl
  · rfl
  · exact absurd ⟨by omega, not_not.mp h2, not_not.mp h3⟩ h
  · exact absurd ⟨by omega, not_not.mp h2, not_not.mp h3⟩ h

/-- **One datagram.** -/
theorem dhcpRx_of_isReply (h : IsReply s.xid data) : dhcpRx s data =
    { s with
      offerIp := le32 data 16
      serverIp := (wordIn DhcpOption.serverId s.xid data).getD s.serverIp
      mask := (wordIn DhcpOption.mask s.xid data).getD s.mask
      gw := (wordIn DhcpOption.router s.xid data).getD s.gw
      dns := (wordIn DhcpOption.nameServer s.xid data).getD s.dns
      gotOffer := s.gotOffer || decide (HasCookie data ∧ typeOf data = 2)
      gotAck := s.gotAck || decide (IsAck s.xid data) } := by
  obtain ⟨hlen, hop, hxid⟩ := h
  have hreply : IsReply s.xid data := ⟨hlen, hop, hxid⟩
  rw [dhcpRx, if_neg (by omega), if_neg (not_not.mpr hop), if_neg (not_not.mpr hxid)]
  by_cases hc : HasCookie data
  · have hopts : ∀ t : Dhcp × UInt8, dhcpOptions data data.length 240 t = (optionsIn data).foldl applyOption t :=
      fun t => dhcpOptions_eq data.length 240 t
    rw [if_neg (not_not.mpr hc), hopts, foldl_applyOption]
    simp only [wordIn, hreply, hc, IsAck, true_and, and_self, if_true]
    rw [← typeOf]
    split_ifs with h2 h5 <;> simp_all
  · rw [if_pos hc]
    simp [wordIn, hc, IsAck]

end Rx

/-! ## The exchange -/

/-- The datagrams of the first `n` rounds of polls. -/
def delivered (polls : Nat → List (List UInt8)) (n : Nat) : List (List UInt8) := (List.range n).flatMap polls

theorem delivered_succ (polls : Nat → List (List UInt8)) (n : Nat) :
    delivered polls (n + 1) = delivered polls n ++ polls n := by
  simp [delivered, List.range_succ]

/-- The variables after the datagrams `ds`. -/
structure Heard (xid : UInt32) (ds : List (List UInt8)) (s : Dhcp) : Prop where
  current : s.xid = xid
  address : s.offerIp = (lastWord (addressIn xid) ds).getD 0
  mask : s.mask = (lastWord (wordIn DhcpOption.mask xid) ds).getD 0
  router : s.gw = (lastWord (wordIn DhcpOption.router xid) ds).getD 0
  nameServer : s.dns = (lastWord (wordIn DhcpOption.nameServer xid) ds).getD 0
  ack : s.gotAck = true → ∃ d ∈ ds, IsAck xid d

section Exchange

variable {xid : UInt32} {ds : List (List UInt8)} {s t : Dhcp} {polls : Nat → List (List UInt8)}

/-- One more datagram. -/
theorem Heard.rx (h : Heard xid ds s) (d : List UInt8) : Heard xid (ds ++ [d]) (dhcpRx s d) := by
  obtain ⟨rfl, haddr, hmask, hrouter, hns, hack⟩ := h
  have hold : s.gotAck = true → ∃ e ∈ ds ++ [d], IsAck s.xid e := by
    intro hs
    obtain ⟨e, he, hea⟩ := hack hs
    exact ⟨e, List.mem_append_left _ he, hea⟩
  by_cases hr : IsReply s.xid d
  · rw [dhcpRx_of_isReply hr]
    refine ⟨rfl, ?_, ?_, ?_, ?_, fun hgot => ?_⟩ <;> try simp only [getD_lastWord_snoc]
    · simp [addressIn, hr]
    · rw [hmask]
    · rw [hrouter]
    · rw [hns]
    · rcases Bool.or_eq_true_iff.mp hgot with hs | hd
      · exact hold hs
      · exact ⟨d, by simp, of_decide_eq_true hd⟩
  · rw [dhcpRx_of_not_isReply hr]
    refine ⟨rfl, ?_, ?_, ?_, ?_, hold⟩ <;>
      simp only [getD_lastWord_snoc, addressIn, wordIn, hr, false_and, if_false, Option.getD_none]
    · exact haddr
    · exact hmask
    · exact hrouter
    · exact hns

theorem Heard.foldl (h : Heard xid ds s) (es : List (List UInt8)) : Heard xid (ds ++ es) (es.foldl dhcpRx s) := by
  induction es generalizing ds s with
  | nil => simpa using h
  | cons e es ih => simpa using ih (h.rx e)

/-- The polls of a round. -/
theorem Heard.round {n : Nat} (h : Heard xid (delivered polls n) s) :
    Heard xid (delivered polls (n + 1)) ((polls n).foldl dhcpRx s) := by
  rw [delivered_succ]
  exact h.foldl (polls n)

theorem Heard.wait {flag : Dhcp → Bool} {fuel n m : Nat} (h : Heard xid (delivered polls n) s)
    (hw : dhcpWait flag polls fuel n s = some (m, t)) : Heard xid (delivered polls m) t ∧ flag t = true := by
  induction fuel generalizing n s with
  | zero => cases hw
  | succ fuel ih =>
    simp only [dhcpWait] at hw
    split_ifs at hw with hf
    · cases hw
      exact ⟨h.round, hf⟩
    · exact ih h.round hw

/-- **What is configured** is the last word on each field, of all the datagrams, and one of them is an ACK. -/
theorem dhcpGetIp_config {cfg : DhcpConfig} {n : Nat} (h : dhcpGetIp s polls = some (cfg, n)) :
    cfg = configOf (s.xid + 1) (delivered polls n) ∧ ∃ d ∈ delivered polls n, IsAck (s.xid + 1) d := by
  have h0 : Heard (s.xid + 1) (delivered polls 0) ⟨s.xid + 1, false, false, 0, 0, 0, 0, 0⟩ := by
    constructor <;> simp [delivered]
  simp only [dhcpGetIp] at h
  cases hoffer : dhcpWait Dhcp.gotOffer polls 6000 0 ⟨s.xid + 1, false, false, 0, 0, 0, 0, 0⟩ with
  | none => simp [hoffer] at h
  | some out =>
    obtain ⟨k, t⟩ := out
    simp only [hoffer] at h
    have h1 := (h0.wait hoffer).1.round
    cases hack : dhcpWait Dhcp.gotAck polls 6000 (k + 1) ((polls k).foldl dhcpRx t) with
    | none => simp [hack] at h
    | some out =>
      obtain ⟨m, u⟩ := out
      simp only [hack, Option.some.injEq, Prod.mk.injEq] at h
      obtain ⟨rfl, rfl⟩ := h
      obtain ⟨h2, hgot⟩ := h1.wait hack
      refine ⟨?_, h2.ack hgot⟩
      simp only [configOf, h2.address, h2.mask, h2.router, h2.nameServer]

/-- The datagram says what the last datagram with anything to say on a field says. -/
def Repeats (xid : UInt32) (ds : List (List UInt8)) (d : List UInt8) : Prop :=
  addressIn xid d = lastWord (addressIn xid) ds ∧
    (wordIn DhcpOption.mask xid d).getD 0 = (lastWord (wordIn DhcpOption.mask xid) ds).getD 0 ∧
    (wordIn DhcpOption.router xid d).getD 0 = (lastWord (wordIn DhcpOption.router xid) ds).getD 0 ∧
    (configOf xid [d]).dnsServer = (configOf xid ds).dnsServer

theorem IsReply.addressIn {d : List UInt8} (h : IsReply xid d) : addressIn xid d = some (le32 d 16) := if_pos h

theorem configOf_eq_iff_repeats {d : List UInt8} (hd : d ∈ ds) (hr : IsReply xid d) :
    configOf xid ds = configOf xid [d] ↔ Repeats xid ds d := by
  have haddr : addressIn xid d = some (le32 d 16) := hr.addressIn
  obtain ⟨a, ha⟩ := exists_lastWord hd haddr
  rw [Repeats, haddr, ha]
  simp only [configOf, lastWord_singleton, haddr, ha, Option.getD_some, Option.some.injEq, DhcpConfig.mk.injEq]
  constructor
  · rintro ⟨h1, h2, h3, h4⟩
    exact ⟨h1.symm, h2.symm, h3.symm, h4.symm⟩
  · rintro ⟨h1, h2, h3, h4⟩
    exact ⟨h1.symm, h2.symm, h3.symm, h4.symm⟩

/-- An ACK with all the options, and no reply after it. -/
theorem repeats_of_last {as bs : List (List UInt8)} {d : List UInt8} (hlast : ∀ e ∈ bs, ¬ IsReply xid e)
    (hd : IsReply xid d) (hmask : (wordIn DhcpOption.mask xid d).isSome)
    (hrouter : (wordIn DhcpOption.router xid d).isSome) (hns : (wordIn DhcpOption.nameServer xid d).isSome) :
    Repeats xid (as ++ d :: bs) d := by
  have hsilent : ∀ f, ∀ e ∈ bs, wordIn f xid e = none := fun f e he => if_neg fun h => hlast e he h.1
  obtain ⟨m, hm⟩ := Option.isSome_iff_exists.mp hmask
  obtain ⟨g, hg⟩ := Option.isSome_iff_exists.mp hrouter
  obtain ⟨n, hn⟩ := Option.isSome_iff_exists.mp hns
  have haddr : ∀ e ∈ bs, addressIn xid e = none := fun e he => if_neg (hlast e he)
  simp only [Repeats, configOf, lastWord_singleton, hd.addressIn, hm, hg, hn,
    lastWord_append_cons hd.addressIn haddr, lastWord_append_cons hm (hsilent _), lastWord_append_cons hg (hsilent _),
    lastWord_append_cons hn (hsilent _), and_self]

/-- **Agreement.** The configuration is that of one ACK exactly when some ACK repeats the last words of all the replies,
which an ACK with all the options does that no other reply follows. -/
theorem dhcpGetIp_agreement_iff {cfg : DhcpConfig} {n : Nat} (h : dhcpGetIp s polls = some (cfg, n)) :
    ((∃ d ∈ delivered polls n, IsAck (s.xid + 1) d ∧ cfg = configOf (s.xid + 1) [d]) ↔
      ∃ d ∈ delivered polls n, IsAck (s.xid + 1) d ∧ Repeats (s.xid + 1) (delivered polls n) d) ∧
    ∀ as d bs, delivered polls n = as ++ d :: bs → (∀ e ∈ bs, ¬ IsReply (s.xid + 1) e) → IsAck (s.xid + 1) d →
      (wordIn DhcpOption.mask (s.xid + 1) d).isSome → (wordIn DhcpOption.router (s.xid + 1) d).isSome →
      (wordIn DhcpOption.nameServer (s.xid + 1) d).isSome → cfg = configOf (s.xid + 1) [d] := by
  obtain ⟨rfl, -⟩ := dhcpGetIp_config h
  refine ⟨?_, ?_⟩
  · constructor
    · rintro ⟨d, hd, hack, hcfg⟩
      exact ⟨d, hd, hack, (configOf_eq_iff_repeats hd hack.1).mp hcfg⟩
    · rintro ⟨d, hd, hack, hrep⟩
      exact ⟨d, hd, hack, (configOf_eq_iff_repeats hd hack.1).mpr hrep⟩
  · intro as d bs hds hlast hack hmask hrouter hns
    have hd : d ∈ delivered polls n := by
      rw [hds]
      simp
    rw [configOf_eq_iff_repeats hd hack.1, hds]
    exact repeats_of_last hlast hack.1 hmask hrouter hns

end Exchange

/-! ## A late offer -/

/-- A reply with transaction id 0x12345679 that gives the address 10.0.`net`.`host`. The mask is 255.255.255.0, and router
and name server are the hosts 1 and 2. -/
def sampleReply (net host msgType : UInt8) : List UInt8 :=
  [2, 1, 6, 0, 0x12, 0x34, 0x56, 0x79] ++ List.replicate 8 0 ++ [10, 0, net, host] ++ List.replicate 216 0 ++
    [0x63, 0x82, 0x53, 0x63, 53, 1, msgType, 1, 4, 255, 255, 255, 0, 3, 4, 10, 0, net, 1, 6, 4, 10, 0, net, 2, 0xFF]

/-- Before the first call. -/
def dhcpBoot : Dhcp := ⟨0x12345678, false, false, 0, 0, 0, 0, 0⟩

/-- An offer in the first round of polls and the ACK in the third. -/
def politePolls (n : Nat) : List (List UInt8) :=
  if n = 0 then [sampleReply 5 50 2] else if n = 2 then [sampleReply 5 50 5] else []

/-- The offer of a second server arrives just after the ACK. -/
def latePolls (n : Nat) : List (List UInt8) :=
  if n = 0 then [sampleReply 5 50 2] else if n = 2 then [sampleReply 5 50 5, sampleReply 7 70 2] else []

theorem dhcpGetIp_polite : ∃ cfg n, dhcpGetIp dhcpBoot politePolls = some (cfg, n) ∧
    ∃ d ∈ delivered politePolls n, IsAck 0x12345679 d ∧ cfg = configOf 0x12345679 [d] := by
  have h : dhcpGetIp dhcpBoot politePolls = some (⟨0x3205000A, 0x00FFFFFF, 0x0105000A, 0x0205000A⟩, 3) := by
    decide +kernel
  refine ⟨_, _, h, _, ?_, ?_, (dhcpGetIp_agreement_iff h).2 [sampleReply 5 50 2] (sampleReply 5 50 5) [] ?_ ?_ ?_ ?_ ?_ ?_⟩ <;>
    decide +kernel

/-- The configuration is that of the other server, which sent no ACK. -/
theorem dhcpGetIp_late : ∃ cfg n, dhcpGetIp dhcpBoot latePolls = some (cfg, n) ∧
    ¬ ∃ d ∈ delivered latePolls n, IsAck 0x12345679 d ∧ cfg = configOf 0x12345679 [d] := by
  refine ⟨⟨0x4607000A, 0x00FFFFFF, 0x0107000A, 0x0207000A⟩, 3, ?_, ?_⟩ <;> decide +kernel

end AmqOs.Network
