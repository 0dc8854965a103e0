import Vxldollar.Messages

/-!
# What the readers of messages do

For each part of a message: what is read after it was written, and how many bytes
a successful read takes. The payload of every type but votes and telemetry takes
as many bytes as the header says, whatever its bytes are.
-/

namespace Vxldollar.MessageReaders
open Wire Blocks Messages

theorem header_parses (h : Header) : Parses Header.deserialize h.serialize h :=
  .big (.little (.little (.little (.little (.little (.pure _))))))

theorem endpoint_parses (e : Endpoint) : Parses readEndpoint (writeEndpoint e) e :=
  .big (.little (.pure _))

theorem pair_parses (p : BlockHash × Root) : Parses readPair (writePair p) p :=
  .big (.big (.pure _))

theorem block_parses (b : Block) : Parses (readBlock b.type) (writeBlock b) b := by
  obtain ⟨hashables,signature,work⟩ := b
  cases hashables with
  | send h => exact .big (.big (.big (.big (.little (.pure _)))))
  | receive h => exact .big (.big (.big (.little (.pure _))))
  | open_ h => exact .big (.big (.big (.big (.little (.pure _)))))
  | change h => exact .big (.big (.big (.little (.pure _))))
  | state h => exact .big (.big (.big (.big (.big (.big (.big (.pure _)))))))

theorem typeOf_typeValue (t : BlockType) : typeOf (typeValue t) = some t := by
  cases t <;> rfl

theorem deserializeBlock_parses (b : Block) :
    Parses (deserializeBlock (typeValue b.type)) (writeBlock b) b := by
  rw [deserializeBlock,typeOf_typeValue]
  exact block_parses b

theorem header_consumes : Consumes Header.deserialize Header.size := by
  have h : Consumes Header.deserialize _ := .big fun _ => .little fun _ => .little fun _ =>
    .little fun _ => .little fun _ => .little fun _ => .pure _
  exact h

theorem block_consumes (t : BlockType) : Consumes (readBlock t) (blockSize (typeValue t)) := by
  cases t with
  | send =>
    have h : Consumes (readBlock .send) _ := .big fun _ => .big fun _ => .big fun _ =>
      .big fun _ => .little fun _ => .pure _
    exact h
  | receive =>
    have h : Consumes (readBlock .receive) _ := .big fun _ => .big fun _ => .big fun _ =>
      .little fun _ => .pure _
    exact h
  | open_ =>
    have h : Consumes (readBlock .open_) _ := .big fun _ => .big fun _ => .big fun _ =>
      .big fun _ => .little fun _ => .pure _
    exact h
  | change =>
    have h : Consumes (readBlock .change) _ := .big fun _ => .big fun _ => .big fun _ =>
      .little fun _ => .pure _
    exact h
  | state =>
    have h : Consumes (readBlock .state) _ := .big fun _ => .big fun _ => .big fun _ =>
      .big fun _ => .big fun _ => .big fun _ => .big fun _ => .pure _
    exact h

theorem deserializeBlock_consumes (type : BitVec 16) :
    Consumes (deserializeBlock type) (blockSize type) := by
  unfold deserializeBlock
  cases h : typeOf type with
  | none => exact Consumes.failure _
  | some t =>
    have hsize : blockSize type = blockSize (typeValue t) := by
      rw [blockSize,blockSize,h,typeOf_typeValue]
    rw [hsize]
    exact block_consumes t

theorem confirmReq_consumes (U : Uniquers) (h : Header) :
    Consumes (readConfirmReq U h) (confirmReqSize h.blockType h.countGet) := by
  unfold readConfirmReq confirmReqSize
  by_cases hn : h.blockType = notABlock
  · rw [if_pos hn,if_neg (fun hc => hc.2 hn),if_pos hn]
    have hpair : Consumes readPair (32+32) := by
      have hp : Consumes readPair _ := .big fun _ => .big fun _ => .pure _
      exact hp
    refine (hpair.count h.countGet).bind (m := 0) fun pairs => ?_
    show Consumes (ite _ _ _) 0
    split_ifs
    · exact Consumes.failure 0
    · exact Consumes.pure _
  · rw [if_neg hn]
    have hsize : (if h.blockType ≠ invalidType ∧ h.blockType ≠ notABlock then blockSize h.blockType
        else if h.blockType = notABlock then h.countGet*(32+32) else 0) =
        blockSize h.blockType := by
      by_cases h0 : h.blockType = invalidType
      · rw [if_neg (fun hc => hc.1 h0),if_neg hn,h0]
        rfl
      · rw [if_pos ⟨h0,hn⟩]
    rw [hsize]
    exact (deserializeBlock_consumes _).map _

variable {h : Header} {t : MessageType} {type : BitVec 16}

theorem bulkPull_consumes (ht : h.type = MessageType.bulkPull.value) :
    Consumes (readBulkPull h) (32+32+(if h.bulkPullIsCountPresent then 8 else 0)) := by
  have hflag : h.bulkPullIsCountPresent = h.extensions.getLsbD Header.bulkPullCountPresentFlag := by
    rw [Header.bulkPullIsCountPresent,ht,beq_self_eq_true,Bool.true_and]
  rw [hflag,Nat.add_assoc]
  refine .big fun start => .big fun finish => ?_
  split_ifs
  · have hcount : Consumes (do
        let front ← readLittle 8
        let count ← readLittle 32
        let _ ← take 3
        if front ≠ 0 then failure else pure (Payload.bulkPull start finish count)) _ :=
      .little fun front => .little fun count => (consumes_take 3).bind fun _ => by
        split_ifs
        · exact Consumes.failure 0
        · exact Consumes.pure _
    exact hcount
  · exact Consumes.pure _

theorem handshake_consumes (h : Header) : Consumes (readHandshake h) (nodeIdHandshakeSize h) := by
  have hr : Consumes readResponse (32+64) := by
    have hp : Consumes readResponse _ := .big fun _ => .big fun _ => .pure _
    exact hp
  exact ((consumes_big 256).optional _).bind fun _ => (hr.optional _).map _

theorem ofValue_eq {v : BitVec 8} (h : MessageType.ofValue v = some t) : v = t.value := by
  have ht := List.find?_some h
  exact (beq_iff_eq.mp ht).symm

theorem ofValue_value (t : MessageType) : MessageType.ofValue t.value = some t := by
  cases t <;> rfl

theorem value_injective : Function.Injective MessageType.value := by
  intro t u e
  have h := ofValue_value t
  rw [e,ofValue_value] at h
  exact (Option.some.inj h).symm

theorem readPayload_eq (U : Uniquers) (ht : h.type = t.value) :
    readPayload U h = readTyped U h t := by
  rw [readPayload,ht,ofValue_value]

theorem payloadLengthBytes_eq (ht : h.type = t.value) : h.payloadLengthBytes = h.typedLength t := by
  rw [Header.payloadLengthBytes,ht,ofValue_value]

/-- The payload takes as many bytes as the header says. -/
theorem typed_consumes (U : Uniquers) (hv : h.type = t.value) (ha : t ≠ .confirmAck)
    (ht : t ≠ .telemetryAck) : Consumes (readTyped U h t) (h.typedLength t) := by
  cases t with
  | invalid | notAType => exact Consumes.failure _
  | keepalive =>
    have he : Consumes readEndpoint (16+2) := by
      have hp : Consumes readEndpoint _ := .big fun _ => .little fun _ => .pure _
      exact hp
    exact (he.vector 8).map _
  | publish => exact (deserializeBlock_consumes _).map _
  | confirmReq => exact confirmReq_consumes U h
  | confirmAck => exact absurd rfl ha
  | bulkPull => exact bulkPull_consumes hv
  | bulkPush | telemetryReq => exact Consumes.pure _
  | frontierReq =>
    have hp : Consumes (readTyped U h .frontierReq) _ :=
      .big fun _ => .little fun _ => .little fun _ => .pure _
    exact hp
  | nodeIdHandshake => exact handshake_consumes h
  | bulkPullAccount =>
    have hp : Consumes (readTyped U h .bulkPullAccount) _ :=
      .big fun _ => .big fun _ => .little fun _ => .pure _
    exact hp
  | telemetryAck => exact absurd rfl ht

def entrySize (type : BitVec 16) : ℕ := if type = notABlock then 32 else blockSize type

theorem entry_consumes (type : BitVec 16) : Consumes (readEntry type) (entrySize type) := by
  unfold readEntry entrySize
  split_ifs
  · exact (consumes_big 256).map _
  · exact (deserializeBlock_consumes type).map _

theorem readable_entry {s : Bytes} {x : (Block ⊕ BlockHash) × Bytes}
    (h : readEntry type s = some x) :
    type = notABlock ∨ ∃ t, typeOf type = some t := by
  unfold readEntry at h
  split_ifs at h with hn
  · exact .inl hn
  · obtain ⟨b,t,hb,-⟩ := bind_eq_some h
    unfold deserializeBlock at hb
    cases ht : typeOf type with
    | none =>
      rw [ht] at hb
      cases hb
    | some t => exact .inr ⟨t,rfl⟩

/-- A vote is read to the end of the stream, and it is for hashes or for blocks of a known
type. -/
theorem vote_read {s rest : Bytes} {v : Vote} (h : Vote.deserialize type s = some (v,rest)) :
    rest = [] ∧ (type = notABlock ∨ ∃ t, typeOf type = some t) ∧
      s.length = 32+64+8+v.blocks.length*entrySize type := by
  obtain ⟨account,s₁,h₁,h⟩ := bind_eq_some h
  obtain ⟨signature,s₂,h₂,h⟩ := bind_eq_some h
  obtain ⟨timestamp,s₃,h₃,h⟩ := bind_eq_some h
  obtain ⟨blocks,s₄,h₄,h⟩ := bind_eq_some h
  obtain ⟨rfl,hlen⟩ := all_length (entry_consumes type) h₄
  split_ifs at h with hb
  · cases h
  cases h
  have l₁ := consumes_big 256 s account s₁ h₁
  have l₂ := consumes_big 512 s₁ signature s₂ h₂
  have l₃ := consumes_little 64 s₂ timestamp s₃ h₃
  obtain ⟨x,hx⟩ := all_first h₄ hb
  refine ⟨rfl,readable_entry hx,?_⟩
  show s.length = 32+64+8+blocks.length*entrySize type
  omega

end Vxldollar.MessageReaders
