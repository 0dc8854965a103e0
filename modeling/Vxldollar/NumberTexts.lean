import Vxldollar.Library.Digits
import Vxldollar.Library.Wire

/-!
# Number texts

Numbers are written to streams and extracted from streams in base 16 or 10. A
word of digits is read as the number it stands for. What an extraction makes of
other texts, with white space, signs or a prefix, is left open.
-/

namespace Vxldollar.NumberTexts
open Wire Digits List

section
variable (other : Bytes → Option ℕ)

def digitChar (upper : Bool) (d : ℕ) : Byte :=
  BitVec.ofNat 8 (if d < 10 then 0x30+d else if upper then 0x37+d else 0x57+d)

def digitValue (c : Byte) : Option ℕ :=
  if 0x30 ≤ c ∧ c ≤ 0x39 then some (c.toNat-0x30)
  else if 0x41 ≤ c ∧ c ≤ 0x46 then some (c.toNat-0x37)
  else if 0x61 ≤ c ∧ c ≤ 0x66 then some (c.toNat-0x57)
  else none

def word (base : ℕ) (text : Bytes) : Option ℕ :=
  (text.mapM digitValue).bind fun ds =>
    if ds ≠ [] ∧ ds.all (· < base) then some (Nat.ofDigits base ds.reverse) else none

def extract (base : ℕ) (text : Bytes) : Option ℕ := (word base text).or (other text)

def encodeHex (upper : Bool) {w : ℕ} (x : BitVec w) : Bytes :=
  (digits 16 (w/4) x.toNat).reverse.map (digitChar upper)

/-- `decode_hex`; only some of the types refuse an empty text. -/
def decodeHex (w : ℕ) (refuseEmpty : Bool) (text : Bytes) : Option (BitVec w) :=
  if w/4 < text.length ∨ refuseEmpty = true ∧ text = [] then none
  else (extract other 16 text).map (BitVec.ofNat w)

def uint256DecodeHex : Bytes → Option (BitVec 256) := decodeHex other 256 true
def uint128DecodeHex : Bytes → Option (BitVec 128) := decodeHex other 128 false
def uint512DecodeHex : Bytes → Option (BitVec 512) := decodeHex other 512 false
def fromStringHex : Bytes → Option (BitVec 64) := decodeHex other 64 true

def encodeDec (x : BitVec 128) : Bytes :=
  if x = 0 then [digitChar true 0] else (Nat.digits 10 x.toNat).reverse.map (digitChar true)

/-- `decode_dec`; checked integers throw when the number does not fit. -/
def decodeDec (text : Bytes) : Option (BitVec 128) :=
  if 39 < text.length ∨ 1 < text.length ∧ text.head? = some 0x30 ∨ text.head? = some 0x2d
  then none
  else ((extract other 10 text).filter (· < 2^128)).map (BitVec.ofNat 128)

end

variable {other : Bytes → Option ℕ}

theorem digitValue_char : ∀ d < 16, ∀ upper, digitValue (digitChar upper d) = some d := by
  decide +kernel

theorem word_digits {base : ℕ} (hb : base ≤ 16) {ds : List ℕ} (upper : Bool) (hne : ds ≠ [])
    (hds : ∀ d ∈ ds, d < base) :
    word base (ds.map (digitChar upper)) = some (Nat.ofDigits base ds.reverse) := by
  have hread : (ds.map (digitChar upper)).mapM digitValue = some ds := by
    clear hne
    induction ds with
    | nil => rfl
    | cons d ds ih =>
      obtain ⟨hd,hds⟩ := forall_mem_cons.mp hds
      rw [map_cons,mapM_cons,digitValue_char d (hd.trans_le hb),ih hds]
      rfl
  rw [word,hread,Option.bind_some,if_pos ⟨hne,by simpa using hds⟩]

theorem decodeHex_encodeHex {w : ℕ} (hw : 4 ∣ w) (hpos : 0 < w) (refuseEmpty upper : Bool)
    (x : BitVec w) : decodeHex other w refuseEmpty (encodeHex upper x) = some x := by
  obtain ⟨n,rfl⟩ := hw
  have hlt : x.toNat < 16^n := by
    have := x.isLt
    rwa [Nat.pow_mul] at this
  have hlen : (encodeHex upper x).length = n := by
    simp [encodeHex]
  have hne : (digits 16 (4*n/4) x.toNat).reverse ≠ [] := by
    rw [← length_pos_iff,length_reverse,length_digits]
    omega
  have hds : ∀ d ∈ (digits 16 (4*n/4) x.toNat).reverse, d < 16 := fun d hd =>
    digits_lt (by decide) (mem_reverse.mp hd)
  rw [decodeHex,if_neg,extract,encodeHex,word_digits le_rfl upper hne hds,reverse_reverse,
    Nat.mul_div_cancel_left n (by decide),ofDigits_digits n _ hlt]
  · simp
  · rw [hlen,← length_eq_zero_iff,hlen]
    omega

theorem decodeDec_encodeDec (x : BitVec 128) : decodeDec other (encodeDec x) = some x := by
  unfold encodeDec
  split_ifs with h0
  · subst h0
    rfl
  have hpos : x.toNat ≠ 0 := fun h => h0 (BitVec.eq_of_toNat_eq h)
  have hnil : Nat.digits 10 x.toNat ≠ [] := Nat.digits_ne_nil_iff_ne_zero.mpr hpos
  have hne : (Nat.digits 10 x.toNat).reverse ≠ [] := by simpa using hnil
  have hds : ∀ d ∈ (Nat.digits 10 x.toNat).reverse, d < 10 := fun d hd =>
    Nat.digits_lt_base (by decide) (mem_reverse.mp hd)
  have hlen : (Nat.digits 10 x.toNat).length ≤ 39 := by
    rw [Nat.digits_length_le_iff (by decide)]
    have := x.isLt
    omega
  -- the first digit is not zero
  have hfirst : (Nat.digits 10 x.toNat).reverse.head? ≠ some 0 := by
    rw [head?_reverse,getLast?_eq_some_getLast hnil]
    exact fun h => Nat.getLast_digit_ne_zero 10 hpos (Option.some.inj h)
  have hhead : ∀ d < 10, (digitChar true d = 0x30 → d = 0) ∧ digitChar true d ≠ 0x2d := by
    decide
  rw [decodeDec,if_neg,extract,word_digits (by decide) true hne hds,reverse_reverse,
    Nat.ofDigits_digits]
  · simp [Option.filter,x.isLt]
  · obtain ⟨d,ds,hd⟩ := exists_cons_of_ne_nil hne
    rw [hd] at hds hfirst
    have h := hhead d (hds d mem_cons_self)
    rw [length_map,length_reverse,hd]
    rintro (hlong | ⟨-,hzero⟩ | hminus)
    · omega
    · exact hfirst (congrArg some (h.1 (Option.some.inj hzero)))
    · exact h.2 (Option.some.inj hminus)

end Vxldollar.NumberTexts
