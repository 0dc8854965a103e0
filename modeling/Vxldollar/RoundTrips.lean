import Vxldollar.MessageReaders
import Vxldollar.Runs

/-!
# Messages come back as they were sent

Every message that a constructor builds is written in as many bytes as its header
says, and reading them gives the message back. What was signed is part of the
message, so a signature that was valid stays valid.
-/

namespace Vxldollar.RoundTrips
open Wire Blocks Messages MessageReaders List

section
variable (N : NetworkConstants)

def keepalive (peers : List.Vector Endpoint 8) : Message := ⟨.make N .keepalive,.keepalive peers⟩

def publish (b : Block) : Message :=
  ⟨(Header.make N .publish).blockTypeSet (typeValue b.type),.publish b⟩

def confirmReq (b : Block) : Message :=
  ⟨(Header.make N .confirmReq).blockTypeSet (typeValue b.type),.confirmReq (some b) []⟩

def confirmReqPairs (rootsHashes : List (BlockHash × Root)) : Message :=
  ⟨((Header.make N .confirmReq).blockTypeSet notABlock).countSet rootsHashes.length,
    .confirmReq none rootsHashes⟩

def confirmAck (v : Vote) : Message := match v.blocks.head? with
  | some (.inr _) => ⟨((Header.make N .confirmAck).blockTypeSet notABlock).countSet v.blocks.length,
      .confirmAck v⟩
  | some (.inl b) => ⟨(Header.make N .confirmAck).blockTypeSet (typeValue b.type),.confirmAck v⟩
  | none => ⟨.make N .confirmAck,.confirmAck v⟩

def frontierReq (onlyConfirmed : Bool) (start : Account) (age count : BitVec 32) : Message :=
  ⟨if onlyConfirmed then (Header.make N .frontierReq).flagSet Header.frontierReqOnlyConfirmed
    else .make N .frontierReq,.frontierReq start age count⟩

def bulkPull (start finish : BitVec 256) : Message :=
  ⟨.make N .bulkPull,.bulkPull start finish 0⟩

def bulkPullCount (start finish : BitVec 256) (count : BitVec 32) : Message :=
  ⟨(Header.make N .bulkPull).flagSet Header.bulkPullCountPresentFlag,.bulkPull start finish count⟩

def bulkPullAccount (account : Account) (minimumAmount : Amount) (flags : BitVec 8) : Message :=
  ⟨.make N .bulkPullAccount,.bulkPullAccount account minimumAmount flags⟩

def bulkPush : Message := ⟨.make N .bulkPush,.bulkPush⟩

def telemetryReq : Message := ⟨.make N .telemetryReq,.telemetryReq⟩

def telemetryAckEmpty : Message := ⟨.make N .telemetryAck,.telemetryAck {}⟩

def telemetryAck (data : TelemetryData) : Message :=
  let h := Header.make N .telemetryAck
  ⟨{ h with extensions := (h.extensions &&& ~~~telemetrySizeMask) |||
      BitVec.ofNat 16 (TelemetryData.size+data.unknownData.length) },.telemetryAck data⟩

def nodeIdHandshake (query : Option (BitVec 256)) (response : Option (Account × Signature)) :
    Message :=
  let h := Header.make N .nodeIdHandshake
  let h := if query.isSome then h.flagSet Header.nodeIdHandshakeQueryFlag else h
  let h := if response.isSome then h.flagSet Header.nodeIdHandshakeResponseFlag else h
  ⟨h,.nodeIdHandshake query response⟩

inductive Constructed : Message → Prop
  | keepalive (peers : List.Vector Endpoint 8) : Constructed (keepalive N peers)
  | publish (b : Block) : Constructed (publish N b)
  | confirmReq (b : Block) : Constructed (confirmReq N b)
  | confirmReqPairs (l : List (BlockHash × Root)) (h0 : l ≠ []) (hl : l.length < 16)
      (hp : ∀ p ∈ l, p ≠ (0,0)) : Constructed (confirmReqPairs N l)
  | confirmAckBlock (timestamp : BitVec 64) (b : Block) (account : Account)
      (signature : Signature) : Constructed (confirmAck N ⟨timestamp,[.inl b],account,signature⟩)
  | confirmAckHashes (timestamp : BitVec 64) (hs : List BlockHash) (account : Account)
      (signature : Signature) (h0 : hs ≠ []) (hl : hs.length < 16) :
      Constructed (confirmAck N ⟨timestamp,hs.map .inr,account,signature⟩)
  | frontierReq (onlyConfirmed : Bool) (start : Account) (age count : BitVec 32) :
      Constructed (frontierReq N onlyConfirmed start age count)
  | bulkPull (start finish : BitVec 256) : Constructed (bulkPull N start finish)
  | bulkPullCount (start finish : BitVec 256) (count : BitVec 32) :
      Constructed (bulkPullCount N start finish count)
  | bulkPullAccount (account : Account) (minimumAmount : Amount) (flags : BitVec 8) :
      Constructed (bulkPullAccount N account minimumAmount flags)
  | bulkPush : Constructed (bulkPush N)
  | telemetryReq : Constructed (telemetryReq N)
  | telemetryAckEmpty : Constructed (telemetryAckEmpty N)
  | telemetryAck (data : TelemetryData) (hms : (1000000 : ℤ) ∣ data.timestamp.toInt)
      (hl : TelemetryData.size+data.unknownData.length ≤ telemetrySizeMask.toNat) :
      Constructed (telemetryAck N data)
  | nodeIdHandshake (query : Option (BitVec 256)) (response : Option (Account × Signature)) :
      Constructed (nodeIdHandshake N query response)

end
section
variable {C : Constants} {N : NetworkConstants} {type : BitVec 16} {m : Message} {v : Vote}

/-- A message whose bytes after the header are as many as the header says and are read
back. -/
def Returns (C : Constants) (m : Message) : Prop := ∃ body, m.body C = some body ∧
  body.length = m.header.payloadLengthBytes ∧ readPayload {} m.header body = some (m.payload,[])

theorem returns_of_parses {body : Bytes} {t : MessageType} (hv : m.header.type = t.value)
    (ha : t ≠ .confirmAck) (ht : t ≠ .telemetryAck) (hb : m.body C = some body)
    (hp : Parses (readTyped {} m.header t) body m.payload) :
    Returns C m := by
  refine ⟨body,hb,?_,?_⟩
  · rw [payloadLengthBytes_eq hv]
    exact hp.length (typed_consumes {} hv ha ht)
  · rw [readPayload_eq {} hv]
    exact hp.eq

theorem keepalive_returns (peers : List.Vector Endpoint 8) : Returns C (keepalive N peers) :=
  returns_of_parses (t := .keepalive) rfl (by decide) (by decide) rfl
    ((Parses.vector endpoint_parses peers).map _)

theorem blockType_set (N : NetworkConstants) (t : MessageType) (b : BlockType) :
    ((Header.make N t).blockTypeSet (typeValue b)).blockType = typeValue b := by
  simp only [Header.blockType,Header.blockTypeSet,Header.make]
  cases b <;> decide

theorem publish_returns (b : Block) : Returns C (publish N b) := by
  apply returns_of_parses (t := .publish) rfl (by decide) (by decide) rfl
  have hp := (deserializeBlock_parses b).map Payload.publish
  rw [← blockType_set N .publish] at hp
  exact hp

theorem typeValue_ne_notABlock (t : BlockType) : typeValue t ≠ notABlock := by
  cases t <;> decide

theorem confirmReq_returns (b : Block) : Returns C (confirmReq N b) := by
  have htype := blockType_set N .confirmReq b.type
  have hne : (confirmReq N b).header.blockType ≠ notABlock := by
    rw [confirmReq,htype]
    exact typeValue_ne_notABlock b.type
  have hbody : (confirmReq N b).body C = some (writeBlock b) := if_neg hne
  apply returns_of_parses (t := .confirmReq) rfl (by decide) (by decide) hbody
  have hp := (deserializeBlock_parses b).map fun b => Payload.confirmReq (some b) []
  rw [← htype] at hp
  show Parses (readConfirmReq {} (confirmReq N b).header) _ _
  rw [readConfirmReq,if_neg hne]
  exact hp

theorem counted (N : NetworkConstants) (t : MessageType) {n : ℕ} (hn : n < 16) :
    (((Header.make N t).blockTypeSet notABlock).countSet n).blockType = notABlock ∧
    (((Header.make N t).blockTypeSet notABlock).countSet n).countGet = n := by
  simp only [Header.blockType,Header.blockTypeSet,Header.make,Header.countSet,Header.countGet]
  revert n
  decide

theorem confirmReqPairs_returns {l : List (BlockHash × Root)} (h0 : l ≠ []) (hl : l.length < 16)
    (hp : ∀ p ∈ l, p ≠ (0,0)) : Returns C (confirmReqPairs N l) := by
  obtain ⟨htype,hcount⟩ : (confirmReqPairs N l).header.blockType = notABlock ∧
      (confirmReqPairs N l).header.countGet = l.length := counted N .confirmReq hl
  have hbody : (confirmReqPairs N l).body C = some (l.flatMap writePair) := if_pos htype
  apply returns_of_parses (t := .confirmReq) rfl (by decide) (by decide) hbody
  have hfilter : l.filter (fun p => p.1 ≠ 0 || p.2 ≠ 0) = l := by
    apply filter_eq_self.mpr
    intro p hm
    have hne := hp p hm
    by_contra hz
    simp only [ne_eq,decide_not,Bool.or_eq_true,Bool.not_eq_true',decide_eq_false_iff_not,
      not_or,not_not] at hz
    exact hne (Prod.ext hz.1 hz.2)
  have hpairs := (Parses.count pair_parses l).bind (f := fun pairs =>
    let rootsHashes := pairs.filter fun p => p.1 ≠ 0 || p.2 ≠ 0
    if rootsHashes = [] ∨ rootsHashes.length ≠ l.length then failure
    else pure (Payload.confirmReq none rootsHashes)) (by
      show Parses (ite _ _ _) [] _
      rw [hfilter,if_neg (by rintro (h | h) <;> contradiction)]
      exact Parses.pure _)
  rw [append_nil] at hpairs
  show Parses (readConfirmReq {} (confirmReqPairs N l).header) _ _
  rw [readConfirmReq,if_pos htype,hcount]
  exact hpairs

section
variable (h0 : v.blocks ≠ []) (he : ∀ e ∈ v.blocks,
  Parses (readEntry type) (writeEntry C type e) e ∧ writeEntry C type e ≠ [])
include h0 he

theorem vote_returns : Vote.deserialize type (v.serialize C type) = some (v,[]) := by
  have hall := parses_all v.blocks he
  refine (parses_big (by decide) _).bind_eq ((parses_big (by decide) _).bind_eq
    ((parses_little (by decide) _).bind_eq ?_))
  rw [flatten_cons,flatten_nil,append_nil]
  rw [bind_of_eq hall,if_neg h0]
  rfl

theorem confirmAck_returns (ht : m.header.type = MessageType.confirmAck.value)
    (hm : m.payload = .confirmAck v) (htype : m.header.blockType = type)
    (hl : confirmAckSize type m.header.countGet = 32+64+8+v.blocks.length*entrySize type) :
    Returns C m := by
  have hv := vote_returns h0 he
  refine ⟨v.serialize C type,?_,?_,?_⟩
  · rw [Message.body,hm,htype]
  · rw [payloadLengthBytes_eq ht,Header.typedLength,htype,hl]
    exact (vote_read hv).2.2
  · rw [readPayload_eq {} ht,hm]
    rw [readTyped,htype,bind_of_eq hv]
    rfl

end

theorem writeBlock_ne_nil (b : Block) : writeBlock b ≠ [] := by
  intro h
  have hlen := (block_parses b).length (block_consumes b.type)
  rw [h] at hlen
  revert hlen
  cases b.type <;> decide

theorem confirmAckBlock_returns (timestamp : BitVec 64) (b : Block) (account : Account)
    (signature : Signature) : Returns C (confirmAck N ⟨timestamp,[.inl b],account,signature⟩) := by
  have hne := typeValue_ne_notABlock b.type
  have hvalid : typeValue b.type ≠ invalidType := by
    cases b.type <;> decide
  rw [confirmAck,head?_cons]
  have htype := blockType_set N .confirmAck b.type
  refine confirmAck_returns (cons_ne_nil _ _) ?_ rfl rfl htype ?_
  · intro e hm
    obtain rfl := mem_singleton.mp hm
    rw [readEntry,if_neg hne,writeEntry,if_neg hne]
    exact ⟨(deserializeBlock_parses b).map _,writeBlock_ne_nil b⟩
  · rw [confirmAckSize,if_pos ⟨hvalid,hne⟩,entrySize,if_neg hne,length_singleton,Nat.one_mul]

theorem confirmAckHashes_returns (timestamp : BitVec 64) {hs : List BlockHash} (account : Account)
    (signature : Signature) (h0 : hs ≠ []) (hl : hs.length < 16) :
    Returns C (confirmAck N ⟨timestamp,hs.map .inr,account,signature⟩) := by
  obtain ⟨h,l,rfl⟩ := exists_cons_of_ne_nil h0
  have hlen : ((h::l).map (Sum.inr : BlockHash → Block ⊕ BlockHash)).length < 16 := by
    rwa [length_map]
  obtain ⟨htype,hcount⟩ := counted N .confirmAck hlen
  rw [confirmAck,map_cons,head?_cons]
  refine confirmAck_returns (cons_ne_nil _ _) ?_ rfl rfl htype ?_
  · intro e hm
    obtain ⟨g,-,rfl⟩ : ∃ g ∈ h::l, Sum.inr g = e := mem_map.mp hm
    rw [readEntry,if_pos rfl,writeEntry]
    refine ⟨(parses_big (by decide) g).map _,ne_nil_of_length_pos ?_⟩
    rw [big_length]
    decide
  · rw [confirmAckSize,if_neg (fun h => h.2 rfl),if_pos rfl,entrySize,if_pos rfl]
    exact congrArg (fun n => 32+64+8+n*32) hcount

theorem frontierReq_returns (onlyConfirmed : Bool) (start : Account) (age count : BitVec 32) :
    Returns C (frontierReq N onlyConfirmed start age count) := by
  have ht : (frontierReq N onlyConfirmed start age count).header.type =
      MessageType.frontierReq.value := by
    cases onlyConfirmed <;> rfl
  exact returns_of_parses ht (by decide) (by decide) rfl (.big (.little (.little (.pure _))))

section
variable (start finish : BitVec 256)
include start finish

theorem bulkPull_parses {h : Header} {count : BitVec 32}
    (hc : h.extensions.getLsbD Header.bulkPullCountPresentFlag = false → count = 0) :
    Parses (readBulkPull h) [big start,big finish,
      if h.extensions.getLsbD Header.bulkPullCountPresentFlag then [0]++little count++[0,0,0]
      else []].flatten (.bulkPull start finish count) := by
  refine .big (.big ?_)
  rw [flatten_cons,flatten_nil,append_nil]
  split_ifs with hf
  · have hpad : Parses (do
        let _ ← take 3
        if (0 : BitVec 8) ≠ 0 then failure else pure (Payload.bulkPull start finish count)) [0,0,0]
        (.bulkPull start finish count) := by
      rw [if_neg (not_not.mpr rfl)]
      have hzeros : Parses (take 3) [0,0,0] [0,0,0] := parses_take rfl
      exact hzeros.map fun _ => Payload.bulkPull start finish count
    exact .little (x := (0 : BitVec 8)) (.little hpad)
  · rw [hc (Bool.eq_false_iff.mpr hf)]
    exact Parses.pure _

theorem bulkPull_returns : Returns C (bulkPull N start finish) :=
  returns_of_parses (t := .bulkPull) rfl (by decide) (by decide) rfl
    (bulkPull_parses start finish fun _ => rfl)

theorem bulkPullCount_returns (count : BitVec 32) :
    Returns C (bulkPullCount N start finish count) := by
  apply returns_of_parses (t := .bulkPull) rfl (by decide) (by decide) rfl
  apply bulkPull_parses start finish
  intro h
  have hflag : ((0 : BitVec 16) ||| (1 <<< Header.bulkPullCountPresentFlag)).getLsbD
      Header.bulkPullCountPresentFlag = true := by decide
  cases hflag.symm.trans h

end

theorem bulkPullAccount_returns (account : Account) (minimumAmount : Amount) (flags : BitVec 8) :
    Returns C (bulkPullAccount N account minimumAmount flags) :=
  returns_of_parses (t := .bulkPullAccount) rfl (by decide) (by decide) rfl
    (.big (.big (.little (.pure _))))

theorem bulkPush_returns : Returns C (bulkPush N) :=
  returns_of_parses (t := .bulkPush) rfl (by decide) (by decide) rfl (.pure _)

theorem telemetryReq_returns : Returns C (telemetryReq N) :=
  returns_of_parses (t := .telemetryReq) rfl (by decide) (by decide) rfl (.pure _)

section
variable (N : NetworkConstants) (query : Option (BitVec 256))
  (response : Option (Account × Signature))

theorem handshake_header : (nodeIdHandshake N query response).header =
    { Header.make N .nodeIdHandshake with
      extensions := (if query.isSome then 1 else 0) ||| (if response.isSome then 2 else 0) } := by
  cases query <;> cases response <;> simp [nodeIdHandshake,Header.flagSet,Header.make,
    Header.nodeIdHandshakeQueryFlag,Header.nodeIdHandshakeResponseFlag]

theorem handshake_flags :
    (nodeIdHandshake N query response).header.nodeIdHandshakeIsQuery = query.isSome ∧
    (nodeIdHandshake N query response).header.nodeIdHandshakeIsResponse = response.isSome := by
  rw [Header.nodeIdHandshakeIsQuery,Header.nodeIdHandshakeIsResponse,handshake_header]
  simp only [Header.make]
  generalize query.isSome = q, response.isSome = r
  revert q r
  decide

theorem nodeIdHandshake_returns : Returns C (nodeIdHandshake N query response) := by
  obtain ⟨hq,hr⟩ := handshake_flags N query response
  have ht : (nodeIdHandshake N query response).header.type = MessageType.nodeIdHandshake.value := by
    rw [handshake_header]
    rfl
  apply returns_of_parses ht (by decide) (by decide) rfl
  rw [readTyped,readHandshake,hq,hr]
  have hresponse : ∀ r, Parses readResponse (writeResponse r) r := fun r => .big (.big (.pure _))
  exact (Parses.optional (parses_big (by decide)) query).bind
    ((Parses.optional hresponse response).bind (Parses.pure _))

end

variable {d : TelemetryData}

theorem milliseconds_mul (h : (1000000 : ℤ) ∣ d.timestamp.toInt) :
    d.milliseconds*1000000 = d.timestamp := by
  obtain ⟨k,hk⟩ := h
  have hlo := d.timestamp.le_toInt
  have hhi := d.timestamp.toInt_lt
  have hmillion : BitVec.toInt (1000000 : BitVec 64) = 1000000 := by decide
  have hdiv : d.milliseconds.toInt = k := by
    rw [TelemetryData.milliseconds,BitVec.toInt_sdiv,hk,hmillion,
      Int.mul_tdiv_cancel_left k (by omega)]
    exact Int.bmod_eq_of_le (by omega) (by omega)
  apply BitVec.eq_of_toInt_eq
  rw [BitVec.toInt_mul,hdiv,hmillion,Int.mul_comm,← hk]
  exact Int.bmod_eq_of_le (by omega) (by omega)

theorem unknown_parses (unknown : Bytes) :
    Parses (TelemetryData.readUnknown (TelemetryData.size+unknown.length)) unknown unknown := by
  unfold TelemetryData.readUnknown
  split_ifs with h
  · exact parses_take (Nat.add_sub_cancel_left _ _).symm
  · have h0 : unknown = [] := eq_nil_of_length_eq_zero (by omega)
    rw [h0]
    exact Parses.pure []

theorem telemetry_parses (d : TelemetryData) :
    Parses (TelemetryData.deserialize (TelemetryData.size+d.unknownData.length)) d.serialize
      { d with timestamp := d.milliseconds*1000000 } := by
  rw [TelemetryData.serialize,flatten_cons,flatten_cons,flatten_nil,
    append_nil]
  exact .big (.big (.big (.big (.big (.big (.big (.big (.little (.big (.big (.little (.little
    (.little (.little (.little (.big (.big ((unknown_parses _).bind (.pure _)))))))))))))))))))

theorem telemetry_length (d : TelemetryData) :
    d.serialize.length = TelemetryData.size+d.unknownData.length := by
  simp only [TelemetryData.serialize,TelemetryData.serializeWithoutSignature,flatten_cons,
    flatten_nil,length_append,big_length,little_length,length_nil]
  rw [TelemetryData.size]
  omega

theorem telemetry_header (hl : TelemetryData.size+d.unknownData.length ≤ telemetrySizeMask.toNat) :
    (telemetryAck N d).header.extensions.toNat = TelemetryData.size+d.unknownData.length ∧
    telemetryAckSize (telemetryAck N d).header = TelemetryData.size+d.unknownData.length := by
  have hmask : telemetrySizeMask.toNat = 2^10-1 := by decide
  have hext : (telemetryAck N d).header.extensions =
      BitVec.ofNat 16 (TelemetryData.size+d.unknownData.length) := by
    show (0#16 &&& ~~~telemetrySizeMask) ||| _ = _
    rw [BitVec.zero_and,BitVec.zero_or]
  have hnat : (telemetryAck N d).header.extensions.toNat =
      TelemetryData.size+d.unknownData.length := by
    rw [hext,BitVec.toNat_ofNat]
    omega
  refine ⟨hnat,?_⟩
  rw [telemetryAckSize,BitVec.toNat_and,hnat,hmask,Nat.and_two_pow_sub_one_eq_mod]
  omega

theorem telemetryAck_returns (hms : (1000000 : ℤ) ∣ d.timestamp.toInt)
    (hl : TelemetryData.size+d.unknownData.length ≤ telemetrySizeMask.toNat) :
    Returns C (telemetryAck N d) := by
  obtain ⟨hnat,hsize⟩ := telemetry_header hl
  have hpos : telemetryAckSize (telemetryAck N d).header ≠ 0 := by
    rw [hsize,TelemetryData.size]
    omega
  have ht : (telemetryAck N d).header.type = MessageType.telemetryAck.value := rfl
  have hp := telemetry_parses d
  rw [milliseconds_mul hms] at hp
  refine ⟨d.serialize,?_,?_,?_⟩
  · exact congrArg some (if_pos hpos)
  · rw [payloadLengthBytes_eq ht,Header.typedLength,hsize,telemetry_length]
  · rw [readPayload_eq {} ht,readTyped,if_pos hpos,hnat,bind_of_eq hp.eq]
    rfl

theorem telemetryAckEmpty_returns : Returns C (telemetryAckEmpty N) := by
  have ht : (telemetryAckEmpty N).header.type = MessageType.telemetryAck.value := rfl
  have h0 : telemetryAckSize (telemetryAckEmpty N).header = 0 := by
    show (0#16 &&& telemetrySizeMask).toNat = 0
    rw [BitVec.zero_and]
    rfl
  refine ⟨[],?_,?_,?_⟩
  · exact congrArg some (if_neg (not_not.mpr h0))
  · rw [payloadLengthBytes_eq ht,Header.typedLength,h0]
    rfl
  · rw [readPayload_eq {} ht,readTyped,if_neg (not_not.mpr h0)]
    rfl

theorem constructed_returns {m : Message} (h : Constructed N m) : Returns C m := by
  cases h with
  | keepalive peers => exact keepalive_returns peers
  | publish b => exact publish_returns b
  | confirmReq b => exact confirmReq_returns b
  | confirmReqPairs l h0 hl hp => exact confirmReqPairs_returns h0 hl hp
  | confirmAckBlock t b a s => exact confirmAckBlock_returns t b a s
  | confirmAckHashes t hs a s h0 hl => exact confirmAckHashes_returns t a s h0 hl
  | frontierReq o s a c => exact frontierReq_returns o s a c
  | bulkPull s f => exact bulkPull_returns s f
  | bulkPullCount s f c => exact bulkPullCount_returns s f c
  | bulkPullAccount a m f => exact bulkPullAccount_returns a m f
  | bulkPush => exact bulkPush_returns
  | telemetryReq => exact telemetryReq_returns
  | telemetryAckEmpty => exact telemetryAckEmpty_returns
  | telemetryAck d hms hl => exact telemetryAck_returns hms hl
  | nodeIdHandshake q r => exact nodeIdHandshake_returns N q r

end

/-- Every constructed message is written in the bytes its header announces and comes
back as it was. -/
theorem wire_round_trip (K : Crypto) (C : Constants) {N : NetworkConstants} {m : Message}
    (hm : Constructed N m) : ∃ body,
    m.serialize C = some (m.header.serialize++body) ∧
    body.length = m.header.payloadLengthBytes ∧
    Header.deserialize (m.header.serialize++body) = some (m.header,body) ∧
    Message.deserialize {} (m.header.serialize++body) = some (m,[]) ∧
    ∀ m' rest, Message.deserialize {} (m.header.serialize++body) = some (m',rest) →
      rest = [] ∧ m'.header = m.header ∧ m'.payload = m.payload ∧
      (m.payload.signed K C = true → m'.payload.signed K C = true) := by
  obtain ⟨body,hbody,hlen,hread⟩ := constructed_returns hm
  have hheader := header_parses m.header body
  have hwhole : Message.deserialize {} (m.header.serialize++body) = some (m,[]) := by
    rw [Message.deserialize,bind_of_eq hheader,bind_of_eq hread]
    rfl
  refine ⟨body,?_,hlen,hheader,hwhole,fun m' rest h => ?_⟩
  · rw [Message.serialize,hbody,Option.map_some]
  · cases hwhole.symm.trans h
    exact ⟨rfl,rfl,rfl,id⟩

theorem wire_round_trip_sample : ∃ v : Vote, v.blocks = [.inr 5,.inr 6] ∧
    ∃ body, (confirmAck ⟨0x5241,18,18⟩ v).serialize Runs.sample =
      some ((confirmAck ⟨0x5241,18,18⟩ v).header.serialize++body) ∧ body.length = 168 := by
  have hm : Constructed ⟨0x5241,18,18⟩ (confirmAck ⟨0x5241,18,18⟩
      ⟨BitVec.allOnes 64,[5,6].map .inr,7,9⟩) :=
    .confirmAckHashes _ [5,6] 7 9 (by decide) (by decide)
  obtain ⟨body,hs,hl,-⟩ := wire_round_trip ⟨fun _ => 0,fun _ _ _ => false⟩ Runs.sample hm
  exact ⟨_,rfl,body,hs,hl⟩

end Vxldollar.RoundTrips
