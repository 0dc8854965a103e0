import Vxldollar.MessageReaders

/-!
# Datagrams and stream framing

`deserialize_buffer` takes a datagram for one message and hands it to the visitor
if nothing is left over. A stream reader takes the header and then as many bytes
as the header says. For most types the two agree on every buffer; votes are read
to the end of the datagram whatever number of entries the header announces.
-/

namespace Vxldollar.Datagrams
open Wire Blocks Messages MessageReaders

section
/-- What the parser is given: the network, the uniquers, the filter of published blocks
and the work check, which returns true on insufficient work. -/
structure Parser where
  network : NetworkConstants
  uniquers : Uniquers := {}
  duplicate : Bytes → Bool := fun _ => false
  validateEntry : Block → Bool := fun _ => false

inductive ParseStatus where
  | success
  | insufficientWork
  | invalidHeader
  | invalidMessageType
  | invalidKeepaliveMessage
  | invalidPublishMessage
  | invalidConfirmReqMessage
  | invalidConfirmAckMessage
  | invalidNodeIdHandshakeMessage
  | invalidTelemetryReqMessage
  | invalidTelemetryAckMessage
  | outdatedVersion
  | duplicatePublishMessage
  deriving DecidableEq, Repr

variable (P : Parser) (h : Header)

def atEnd (s : Bytes) : Bool := s.isEmpty

def deliver (type : MessageType) (invalid : ParseStatus) (insufficient : Payload → Bool)
    (s : Bytes) : ParseStatus × Option Message := match readTyped P.uniquers h type s with
  | some (p,rest) =>
    if atEnd rest then
      if insufficient p then (.insufficientWork,none) else (.success,some ⟨h,p⟩)
    else (invalid,none)
  | none => (invalid,none)

def deserializeKeepalive : Bytes → ParseStatus × Option Message :=
  deliver P h .keepalive .invalidKeepaliveMessage fun _ => false

def deserializePublish : Bytes → ParseStatus × Option Message :=
  deliver P h .publish .invalidPublishMessage fun
    | .publish b => P.validateEntry b
    | _ => false

def deserializeConfirmReq : Bytes → ParseStatus × Option Message :=
  deliver P h .confirmReq .invalidConfirmReqMessage fun
    | .confirmReq (some b) _ => P.validateEntry b
    | _ => false

def deserializeConfirmAck : Bytes → ParseStatus × Option Message :=
  deliver P h .confirmAck .invalidConfirmAckMessage fun
    | .confirmAck v => v.blocks.any fun
      | .inl b => P.validateEntry b
      | .inr _ => false
    | _ => false

def deserializeNodeIdHandshake : Bytes → ParseStatus × Option Message :=
  deliver P h .nodeIdHandshake .invalidNodeIdHandshakeMessage fun _ => false

def deserializeTelemetryReq : Bytes → ParseStatus × Option Message :=
  deliver P h .telemetryReq .invalidTelemetryReqMessage fun _ => false

/-- Later versions may send more, so the end is not checked. -/
def deserializeTelemetryAck (s : Bytes) : ParseStatus × Option Message :=
  match readTyped P.uniquers h .telemetryAck s with
  | some (p,_) => (.success,some ⟨h,p⟩)
  | none => (.invalidTelemetryAckMessage,none)

def deserializeTyped (s : Bytes) : MessageType → ParseStatus × Option Message
  | .keepalive => deserializeKeepalive P h s
  | .publish =>
    if P.duplicate s then (.duplicatePublishMessage,none) else deserializePublish P h s
  | .confirmReq => deserializeConfirmReq P h s
  | .confirmAck => deserializeConfirmAck P h s
  | .nodeIdHandshake => deserializeNodeIdHandshake P h s
  | .telemetryReq => deserializeTelemetryReq P h s
  | .telemetryAck => deserializeTelemetryAck P h s
  | _ => (.invalidMessageType,none)

def maxSafeUdpMessageSize : ℕ := 508

/-- The status and the message the visitor gets. A buffer that is too long is ignored. -/
def deserializeBuffer (buffer : Bytes) : ParseStatus × Option Message :=
  if buffer.length ≤ maxSafeUdpMessageSize then
    match Header.deserialize buffer with
    | some (h,s) =>
      if h.versionUsing < P.network.protocolVersionMin then (.outdatedVersion,none)
      else match MessageType.ofValue h.type with
        | some t => deserializeTyped P h s t
        | none => (.invalidMessageType,none)
    | none => (.invalidHeader,none)
  else (.success,none)

/-- The stream reader: the header, as many bytes as it says, and what follows. -/
def receive (s : Bytes) : Option (Header × Bytes × Bytes) := match Header.deserialize s with
  | some (h,t) =>
    if h.payloadLengthBytes ≤ t.length then
      some (h,t.take h.payloadLengthBytes,t.drop h.payloadLengthBytes)
    else none
  | none => none

end
section
variable {P : Parser} {h : Header} {buffer s : Bytes} {m : Message} {t type : MessageType}

theorem deliver_some {invalid : ParseStatus} {insufficient : Payload → Bool}
    (hd : (deliver P h type invalid insufficient s).2 = some m) :
    m.header = h ∧ readTyped P.uniquers h type s = some (m.payload,[]) := by
  unfold deliver at hd
  cases hr : readTyped P.uniquers h type s with
  | none =>
    rw [hr] at hd
    cases hd
  | some x =>
    obtain ⟨p,rest⟩ := x
    rw [hr] at hd
    dsimp only at hd
    split_ifs at hd with he hw
    cases hd
    rw [List.isEmpty_iff.mp he]
    exact ⟨rfl,rfl⟩

theorem typed_some (hd : (deserializeTyped P h s t).2 = some m) :
    m.header = h ∧ (t ≠ .telemetryAck → readTyped P.uniquers h t s = some (m.payload,[])) := by
  cases t with
  | keepalive | confirmReq | confirmAck | nodeIdHandshake | telemetryReq =>
    obtain ⟨hh,hr⟩ := deliver_some hd
    exact ⟨hh,fun _ => hr⟩
  | publish =>
    rw [deserializeTyped] at hd
    split_ifs at hd
    obtain ⟨hh,hr⟩ := deliver_some hd
    exact ⟨hh,fun _ => hr⟩
  | telemetryAck =>
    rw [deserializeTyped,deserializeTelemetryAck] at hd
    split at hd
    · cases hd
      exact ⟨rfl,fun h => absurd rfl h⟩
    · cases hd
  | _ => cases hd

def bounded : List MessageType := [.keepalive,.publish,.confirmReq,.confirmAck,.nodeIdHandshake]

theorem delivered (hd : (deserializeBuffer P buffer).2 = some m) (ht : m.header.type = t.value)
    (hb : t ∈ bounded) : ∃ s,
    Header.deserialize buffer = some (m.header,s) ∧
    readTyped P.uniquers m.header t s = some (m.payload,[]) := by
  have htel : t ≠ .telemetryAck := by
    rintro rfl
    exact absurd hb (by decide)
  unfold deserializeBuffer at hd
  split_ifs at hd
  cases hh : Header.deserialize buffer with
  | none =>
    rw [hh] at hd
    cases hd
  | some x =>
    obtain ⟨h,s⟩ := x
    rw [hh] at hd
    dsimp only at hd
    split_ifs at hd
    cases e : MessageType.ofValue h.type with
    | none =>
      rw [e] at hd
      cases hd
    | some t' =>
      rw [e] at hd
      obtain ⟨rfl,hr⟩ := typed_some hd
      -- the message carries the header that was read, so its type chose the branch
      obtain rfl := value_injective ((ofValue_eq e).symm.trans ht)
      exact ⟨s,rfl,hr htel⟩

end
variable {P : Parser} {buffer : Bytes} {m : Message} {h : Header} {s : Bytes}

/-- A vote has as many entries as the header announces: the count of hashes or a single
block. -/
def Announced (h : Header) (s : Bytes) : Prop := h.type = MessageType.confirmAck.value →
  ∀ v rest, Vote.deserialize h.blockType s = some (v,rest) →
    v.blocks.length = if h.blockType = notABlock then h.countGet else 1

theorem receive_iff (hh : Header.deserialize buffer = some (h,s)) :
    receive buffer = some (h,s,[]) ↔ s.length = h.payloadLengthBytes := by
  rw [receive,hh]
  dsimp only
  constructor
  · intro hr
    split_ifs at hr with hl
    have hdrop := congrArg (fun x => x.2.2) (Option.some.inj hr)
    have hlen := congrArg List.length hdrop
    rw [List.length_drop,List.length_nil] at hlen
    omega
  · intro hl
    rw [if_pos hl.ge,← hl,List.take_length,List.drop_length]

theorem vote_length_iff {type : BitVec 16} {count : ℕ} {s rest : Bytes} {v : Vote}
    (hv : Vote.deserialize type s = some (v,rest)) : s.length = confirmAckSize type count ↔
      v.blocks.length = if type = notABlock then count else 1 := by
  obtain ⟨-,htype,hlen⟩ := vote_read hv
  rw [hlen,confirmAckSize]
  rcases htype with rfl | ⟨t,ht⟩
  · rw [if_neg (fun h => h.2 rfl),if_pos rfl,if_pos rfl,entrySize,if_pos rfl]
    omega
  · have hnot : type ≠ notABlock := by
      rintro rfl
      cases ht
    have hvalid : type ≠ invalidType := by
      rintro rfl
      cases ht
    have hpos : 0 < blockSize type := by
      rw [blockSize,ht]
      cases t <;> decide
    rw [if_pos ⟨hvalid,hnot⟩,if_neg hnot,entrySize,if_neg hnot,Nat.add_left_cancel_iff]
    exact Nat.mul_eq_right hpos.ne'

theorem length_iff {t : MessageType} {U : Uniquers} {p : Payload} (ht : h.type = t.value)
    (hb : t ∈ bounded) (hr : readTyped U h t s = some (p,[])) :
    s.length = h.payloadLengthBytes ↔ Announced h s := by
  rw [payloadLengthBytes_eq ht]
  by_cases ha : t = .confirmAck
  · subst ha
    obtain ⟨v,rest,hv,-⟩ := bind_eq_some hr
    rw [Header.typedLength,vote_length_iff hv]
    constructor
    · intro hl _ v' rest' hv'
      cases hv.symm.trans hv'
      exact hl
    · intro hA
      exact hA ht v rest hv
  · have htel : t ≠ .telemetryAck := by
      rintro rfl
      exact absurd hb (by decide)
    have hlen := typed_consumes U ht ha htel s p [] hr
    exact iff_of_true hlen fun hc => absurd (value_injective (ht.symm.trans hc)) ha

/-- For a delivered message the bytes after the header are as many as the header says, and
a stream reader frames the same message, exactly when a vote has as many entries as the
header announces. -/
theorem datagram_framing_iff {t : MessageType} (hd : (deserializeBuffer P buffer).2 = some m)
    (ht : m.header.type = t.value) (hb : t ∈ bounded) : ∃ s,
    Header.deserialize buffer = some (m.header,s) ∧ buffer.length = Header.size+s.length ∧
    readPayload P.uniquers m.header s = some (m.payload,[]) ∧
    (s.length = m.header.payloadLengthBytes ↔ Announced m.header s) ∧
    (receive buffer = some (m.header,s,[]) ↔ Announced m.header s) ∧
    (t ≠ .confirmAck → receive buffer = some (m.header,s,[])) := by
  obtain ⟨s,hs,hr⟩ := delivered hd ht hb
  have hlen := length_iff ht hb hr
  have hrec := receive_iff hs
  refine ⟨s,hs,header_consumes buffer m.header s hs,?_,hlen,hrec.trans hlen,fun ha => ?_⟩
  · rw [readPayload_eq P.uniquers ht]
    exact hr
  · apply hrec.mpr
    apply hlen.mpr
    intro hc
    exact absurd (value_injective (ht.symm.trans hc)) ha

def sampleParser : Parser := { network := ⟨0x5241,18,18⟩ }

def sampleDatagram (count : ℕ) : Bytes :=
  (((Header.make ⟨0x5241,18,18⟩ .confirmAck).blockTypeSet notABlock).countSet count).serialize++
    [big (7 : Account),big (9 : Signature),little (BitVec.allOnes 64),big (5 : BlockHash),
      big (6 : BlockHash)].flatten

theorem datagram_framing_iff_sample : ∃ m s,
    (deserializeBuffer sampleParser (sampleDatagram 2)).2 = some m ∧
    receive (sampleDatagram 2) = some (m.header,s,[]) := by
  have hd : (deserializeBuffer sampleParser (sampleDatagram 2)).2 =
      some ⟨((Header.make ⟨0x5241,18,18⟩ .confirmAck).blockTypeSet notABlock).countSet 2,
        .confirmAck ⟨BitVec.allOnes 64,[.inr 5,.inr 6],7,9⟩⟩ := by decide +kernel
  obtain ⟨s,hs,hl,-,hlen,hframe,-⟩ := datagram_framing_iff (t := .confirmAck) hd rfl (by decide)
  refine ⟨_,s,hd,hframe.mpr (hlen.mp ?_)⟩
  have htotal : (sampleDatagram 2).length = 176 := by decide +kernel
  rw [htotal] at hl
  have hpayload : (((Header.make ⟨0x5241,18,18⟩ .confirmAck).blockTypeSet notABlock).countSet
      2).payloadLengthBytes = 168 := by decide +kernel
  rw [hpayload]
  have hsize : Header.size = 8 := rfl
  omega

/-- With one entry announced the vote is delivered with both; the stream reader would stop
before the second hash and take it for the next header. -/
theorem datagram_misframed : ∃ m s,
    (deserializeBuffer sampleParser (sampleDatagram 1)) = (.success,some m) ∧
    m.payload = .confirmAck ⟨BitVec.allOnes 64,[.inr 5,.inr 6],7,9⟩ ∧
    Header.deserialize (sampleDatagram 1) = some (m.header,s) ∧
    s.length = 168 ∧ m.header.payloadLengthBytes = 136 ∧
    receive (sampleDatagram 1) = some (m.header,s.take 136,s.drop 136) ∧
    s.drop 136 = big (6 : BlockHash) := by
  refine ⟨⟨((Header.make ⟨0x5241,18,18⟩ .confirmAck).blockTypeSet notABlock).countSet 1,
    .confirmAck ⟨BitVec.allOnes 64,[.inr 5,.inr 6],7,9⟩⟩,(sampleDatagram 1).drop 8,?_⟩
  decide +kernel

end Vxldollar.Datagrams
