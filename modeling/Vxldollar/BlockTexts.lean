import Vxldollar.AccountTexts
import Vxldollar.NumberTexts

/-!
# Block texts

`serialize_json` writes the fields of a block as a tree of texts: hashes,
signatures, work and the balance of a send in base 16, the balance of a state
block in base 10, accounts with their checksum. `deserialize_block_json` reads
the tree back with the constructor of the type that it names. Trees are
compared, not the characters of the JSON text.
-/

namespace Vxldollar.BlockTexts
open Blocks Wire AccountTexts NumberTexts Option List

/-- The children of a property tree; no name is put twice. -/
abbrev Tree := List (String × Bytes)

variable (blake : Account → BitVec 40) (other : Bytes → Option ℕ)

def hex {w : ℕ} (x : BitVec w) : Bytes := encodeHex true x

def workHex (x : Work) : Bytes := encodeHex false x

def serializeJson (b : Block) : Tree := match b.hashables with
  | .send h => [("type",bytes "send"),("previous",hex h.previous),
      ("destination",toAccount blake h.destination),("balance",hex h.balance),
      ("work",workHex b.work),("signature",hex b.signature)]
  | .receive h => [("type",bytes "receive"),("previous",hex h.previous),("source",hex h.source),
      ("work",workHex b.work),("signature",hex b.signature)]
  | .open_ h => [("type",bytes "open"),("source",hex h.source),
      ("representative",toAccount blake h.representative),("account",toAccount blake h.account),
      ("work",workHex b.work),("signature",hex b.signature)]
  | .change h => [("type",bytes "change"),("previous",hex h.previous),
      ("representative",toAccount blake h.representative),("work",workHex b.work),
      ("signature",hex b.signature)]
  | .state h => [("type",bytes "state"),("account",toAccount blake h.account),
      ("previous",hex h.previous),("representative",toAccount blake h.representative),
      ("balance",encodeDec h.balance),("link",hex h.link),
      ("link_as_account",toAccount blake h.link),("signature",hex b.signature),
      ("work",workHex b.work)]

section
variable (tree : Tree)

/-- A child of the tree, read. The constructors take all texts before they read
the first one; a missing text and one that cannot be read are the same error. -/
def field {α : Type} (name : String) (read : Bytes → Option α) : Option α :=
  (tree.lookup name).bind read

def sendHashables : Option SendHashables := do
  let previous ← field tree "previous" (uint256DecodeHex other)
  let destination ← field tree "destination" (decodeAccount blake)
  let balance ← field tree "balance" (uint128DecodeHex other)
  return ⟨previous,destination,balance⟩

def receiveHashables : Option ReceiveHashables := do
  let previous ← field tree "previous" (uint256DecodeHex other)
  let source ← field tree "source" (uint256DecodeHex other)
  return ⟨previous,source⟩

def openHashables : Option OpenHashables := do
  let source ← field tree "source" (uint256DecodeHex other)
  let representative ← field tree "representative" (decodeAccount blake)
  let account ← field tree "account" (decodeAccount blake)
  return ⟨source,representative,account⟩

def changeHashables : Option ChangeHashables := do
  let previous ← field tree "previous" (uint256DecodeHex other)
  let representative ← field tree "representative" (decodeAccount blake)
  return ⟨previous,representative⟩

/-- The link is read as an account or else as a hash. -/
def decodeLink (text : Bytes) : Option Link :=
  (decodeAccount blake text).or (uint256DecodeHex other text)

def stateHashables : Option StateHashables := do
  let account ← field tree "account" (decodeAccount blake)
  let previous ← field tree "previous" (uint256DecodeHex other)
  let representative ← field tree "representative" (decodeAccount blake)
  let balance ← field tree "balance" (decodeDec other)
  let link ← field tree "link" (decodeLink blake other)
  return ⟨account,previous,representative,balance,link⟩

def finish (hashables : Option Hashables) : Option Block := do
  let hashables ← hashables
  let work ← field tree "work" (fromStringHex other)
  let signature ← field tree "signature" (uint512DecodeHex other)
  return ⟨hashables,signature,work⟩

def construct (type : Bytes) : Option Block :=
  if type = bytes "receive" then finish other tree ((receiveHashables other tree).map .receive)
  else if type = bytes "send" then finish other tree ((sendHashables blake other tree).map .send)
  else if type = bytes "open" then finish other tree ((openHashables blake other tree).map .open_)
  else if type = bytes "change" then
    finish other tree ((changeHashables blake other tree).map .change)
  else if type = bytes "state" then
    finish other tree ((stateHashables blake other tree).map .state)
  else none

def deserializeBlockJson : Option Block := field tree "type" (construct blake other tree)

end

variable {blake other}

theorem decode_toAccount (k : Account) :
    decodeAccount blake (toAccount blake k) = some k :=
  (decode_canonical toAccount_canonical.length).mpr toAccount_canonical

theorem decode_hex {w : ℕ} {refuseEmpty : Bool} (x : BitVec w) (hw : 4 ∣ w := by decide)
    (hpos : 0 < w := by decide) : decodeHex other w refuseEmpty (hex x) = some x :=
  decodeHex_encodeHex hw hpos refuseEmpty true x

theorem decode_work (x : Work) : fromStringHex other (workHex x) = some x :=
  decodeHex_encodeHex (by decide) (by decide) true false x

theorem decodeAccount_hex {w : ℕ} (x : BitVec w) :
    decodeAccount blake (hex x) = none := by
  have hchars : ∀ c ∈ hex x, c ≠ 0x76 ∧ c ≠ 0x6e := by
    have hall : ∀ d < 16, digitChar true d ≠ 0x76 ∧ digitChar true d ≠ 0x6e := by decide
    intro c hc
    obtain ⟨d,hd,rfl⟩ := mem_map.mp hc
    exact hall d (Digits.digits_lt (by decide) (mem_reverse.mp hd))
  have hfirst : ∀ c : Byte, (c = 0x76 ∨ c = 0x6e) → ∀ l, (hex x).take 5 ≠ c :: l := by
    intro c hc l h
    have := hchars c (mem_of_mem_take (h ▸ mem_cons_self))
    exact hc.elim this.1 this.2
  rw [eq_none_iff_forall_ne_some]
  intro k hk
  obtain ⟨hpre,-⟩ := decodeAccount_eq.mp hk
  simp only [accountPrefixed,nodePrefixed,Bool.or_eq_true,beq_iff_eq] at hpre
  rcases hpre with (h | h) | h
  · exact hfirst _ (.inl rfl) _ h
  · exact hfirst _ (.inl rfl) _ h
  · exact hfirst _ (.inr rfl) _ h

theorem decodeLink_hex (x : Link) : decodeLink blake other (hex x) = some x := by
  rw [decodeLink,decodeAccount_hex,uint256DecodeHex,decode_hex,none_or]

variable {tree : Tree}

theorem field_some {α : Type} {name : String} {read : Bytes → Option α} {text : Bytes} {x : α}
    (ht : tree.lookup name = some text) (hr : read text = some x) :
    field tree name read = some x := by
  rw [field,ht,bind_some,hr]

theorem deserialize_of {α : Type} {read : Option α} {x : α} {type : α → Hashables}
    {signature : Signature} {work : Work} (name : String)
    (ht : tree.lookup "type" = some (bytes name))
    (hw : tree.lookup "work" = some (workHex work))
    (hs : tree.lookup "signature" = some (hex signature))
    (hc : construct blake other tree (bytes name) = finish other tree (read.map type))
    (hx : read = some x) :
    deserializeBlockJson blake other tree = some ⟨type x,signature,work⟩ := by
  refine field_some ht (hc.trans ?_)
  rw [hx,map_some]
  simp only [finish,bind_eq_bind,bind_eq_some_iff]
  exact ⟨_,rfl,_,field_some hw (decode_work _),_,field_some hs (decode_hex _),rfl⟩

/-- The tree of a block is read back as the block. -/
theorem deserialize_serialize (blake : Account → BitVec 40) (other : Bytes → Option ℕ)
    (b : Block) : deserializeBlockJson blake other (serializeJson blake b) = some b := by
  obtain ⟨h,signature,work⟩ := b
  cases h with
  | receive h =>
    refine deserialize_of "receive" rfl rfl rfl rfl ?_
    simp only [receiveHashables,bind_eq_bind,bind_eq_some_iff]
    exact ⟨_,field_some rfl (decode_hex _),_,field_some rfl (decode_hex _),rfl⟩
  | send h =>
    refine deserialize_of "send" rfl rfl rfl rfl ?_
    simp only [sendHashables,bind_eq_bind,bind_eq_some_iff]
    exact ⟨_,field_some rfl (decode_hex _),_,field_some rfl (decode_toAccount _),_,
      field_some rfl (decode_hex _),rfl⟩
  | open_ h =>
    refine deserialize_of "open" rfl rfl rfl rfl ?_
    simp only [openHashables,bind_eq_bind,bind_eq_some_iff]
    exact ⟨_,field_some rfl (decode_hex _),_,field_some rfl (decode_toAccount _),_,
      field_some rfl (decode_toAccount _),rfl⟩
  | change h =>
    refine deserialize_of "change" rfl rfl rfl rfl ?_
    simp only [changeHashables,bind_eq_bind,bind_eq_some_iff]
    exact ⟨_,field_some rfl (decode_hex _),_,field_some rfl (decode_toAccount _),rfl⟩
  | state h =>
    refine deserialize_of "state" rfl rfl rfl rfl ?_
    simp only [stateHashables,bind_eq_bind,bind_eq_some_iff]
    exact ⟨_,field_some rfl (decode_toAccount _),_,field_some rfl (decode_hex _),_,
      field_some rfl (decode_toAccount _),_,field_some rfl (decodeDec_encodeDec _),_,
      field_some rfl (decodeLink_hex _),rfl⟩

end Vxldollar.BlockTexts
