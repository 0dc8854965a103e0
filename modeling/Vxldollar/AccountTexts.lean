import Vxldollar.Blocks
import Vxldollar.Library.Digits
import Vxldollar.Library.Wire

/-!
# Account texts

`public_key::encode_account` writes a key and its checksum as sixty digits in
base 32, and `decode_account` reads them back. The checksum is any function of
the key with 40 bits. The length of the text is checked only for the prefixes
of an account, so the text of a node may have leading zeros.
-/

namespace Vxldollar.AccountTexts
open Blocks Wire Digits List

section
def bytes (s : String) : Bytes := s.toList.map fun c => BitVec.ofNat 8 c.toNat

def accountLookup : Bytes := bytes "13456789abcdefghijkmnopqrstuwxyz"

def accountReverse : Bytes :=
  bytes "~0~1234567~~~~~~~~~~~~~~~~~~~~~~~~~~~~~~~~~~~~~~~89:;<=>?@AB~CDEFGHIJK~LMNO~~~~~"

def accountEncode (value : ℕ) : Byte := accountLookup.getD value 0

def accountDecode (value : Byte) : Byte :=
  let result := accountReverse.getD (value.toNat-0x30) 0
  if result = 0x7e then result else result-0x30

/-- The loop over the characters; the number has 512 bits. -/
def decodeLoop : Bytes → ℕ → Option ℕ
  | [],number => some number
  | c::cs,number =>
    if c.toNat < 0x30 ∨ 0x80 ≤ c.toNat then none
    else
      let byte := accountDecode c
      if byte = 0x7e then none else decodeLoop cs ((number*2^5+byte.toNat)%2^512)

variable (blake : Account → BitVec 40)

def checked (k : Account) : ℕ := k.toNat*2^40+(blake k).toNat

def encodeAccount (k : Account) : Bytes :=
  ((digits 32 60 (checked blake k)).map accountEncode++bytes "_dlxv").reverse

def toAccount (k : Account) : Bytes := encodeAccount blake k

def toNodeId (k : Account) : Bytes := bytes "node"++(toAccount blake k).drop 4

def accountPrefixed (s : Bytes) : Bool := s.take 5 == bytes "vxld_" || s.take 5 == bytes "vxld-"

def nodePrefixed (s : Bytes) : Bool := s.take 5 == bytes "node_"

def decodeAccount (s : Bytes) : Option Account :=
  if s.length < 5 then none
  else if accountPrefixed s ∧ s.length ≠ 65 then none
  else if accountPrefixed s || nodePrefixed s then
    if s[5]? = some 0x31 ∨ s[5]? = some 0x33 then
      (decodeLoop (s.drop 5) 0).bind fun number =>
        let k := BitVec.ofNat 256 (number/2^40)
        if number%2^40 = (blake k).toNat then some k else none
    else none
  else none

/-- One of the prefixes, followed by what `encode_account` writes after its own. -/
def Canonical (s : Bytes) (k : Account) : Prop :=
  (accountPrefixed s || nodePrefixed s) = true ∧ s.drop 5 = (encodeAccount blake k).drop 5

/-- The number that the digits stand for, cut to 512 bits. -/
def numberOf (cs : Bytes) : ℕ := Nat.ofDigits 32 (cs.map accountLookup.idxOf).reverse%2^512

/-- A text that does not begin with the digit zero or one, has a character that
is no digit, or ends with another checksum than that of its key. -/
def Malformed (s : Bytes) : Prop :=
  ¬ ((s.drop 5)[0]? = some 0x31 ∨ (s.drop 5)[0]? = some 0x33) ∨
    ¬ (∀ c ∈ s.drop 5, c ∈ accountLookup) ∨
    numberOf (s.drop 5)%2^40 ≠ (blake (BitVec.ofNat 256 (numberOf (s.drop 5)/2^40))).toNat

end

theorem decode_encode : ∀ v < 32, accountDecode (accountEncode v) = BitVec.ofNat 8 v ∧
    0x30 ≤ (accountEncode v).toNat ∧ (accountEncode v).toNat < 0x80 := by
  decide +kernel

theorem encode_lt : ∀ e < 32, ∀ d < e, accountEncode d < accountEncode e := by
  decide +kernel

theorem encode_low : ∀ d < 32, (accountEncode d = 0x31 ∨ accountEncode d = 0x33) ↔ d < 2 := by
  decide +kernel

theorem encode_decode : ∀ c : Byte, 0x30 ≤ c.toNat → c.toNat < 0x80 → accountDecode c ≠ 0x7e →
    (accountDecode c).toNat < 32 ∧ accountEncode (accountDecode c).toNat = c := by
  decide +kernel

example : accountEncode 31 = 0x7a := by decide +kernel

theorem lookup_encode : ∀ d < 32, accountLookup.idxOf (accountEncode d) = d := by
  decide +kernel

theorem length_lookup : accountLookup.length = 32 := by
  decide +kernel

theorem mem_lookup {c : Byte} : c ∈ accountLookup ↔ ∃ d < 32, accountEncode d = c := by
  constructor
  · intro hc
    have hlt := idxOf_lt_length_iff.mpr hc
    refine ⟨accountLookup.idxOf c,length_lookup ▸ hlt,?_⟩
    rw [accountEncode,getD_eq_getElem?_getD,getElem?_eq_getElem hlt,Option.getD_some,
      getElem_idxOf]
  · rintro ⟨d,hd,rfl⟩
    rw [← idxOf_lt_length_iff,lookup_encode d hd,length_lookup]
    exact hd

section
variable {blake : Account → BitVec 40}

theorem decodeLoop_eq (cs : Bytes) (n N : ℕ) (hn : n < 2^512) :
    decodeLoop cs n = some N ↔ ∃ ds : List ℕ, (∀ d ∈ ds, d < 32) ∧ cs = ds.map accountEncode ∧
      N = (n*32^ds.length+Nat.ofDigits 32 ds.reverse)%2^512 := by
  induction cs generalizing n with
  | nil =>
    constructor
    · rintro ⟨⟩
      refine ⟨[],nofun,rfl,?_⟩
      rw [length_nil,Nat.pow_zero,Nat.mul_one]
      exact (Nat.mod_eq_of_lt hn).symm
    · rintro ⟨ds,-,hcs,rfl⟩
      obtain rfl : ds = [] := map_eq_nil_iff.mp hcs.symm
      rw [length_nil,Nat.pow_zero,Nat.mul_one]
      exact congrArg some (Nat.mod_eq_of_lt hn).symm
  | cons c cs ih =>
    have hvalue : ∀ (d : ℕ) (ds : List ℕ),
        ((n*2^5+d)%2^512*32^ds.length+Nat.ofDigits 32 ds.reverse)%2^512 =
          (n*32^(d::ds).length+Nat.ofDigits 32 (d::ds).reverse)%2^512 := by
      intro d ds
      rw [reverse_cons,Nat.ofDigits_append,Nat.ofDigits_singleton,length_reverse,
        length_cons,Nat.add_mod,Nat.mod_mul_mod,← Nat.add_mod]
      congr 1
      ring
    rw [decodeLoop]
    dsimp only
    constructor
    · intro h
      split_ifs at h with hc hd
      rw [not_or,not_lt,not_le] at hc
      obtain ⟨hlt,henc⟩ := encode_decode c hc.1 hc.2 hd
      obtain ⟨ds,hds,rfl,rfl⟩ := (ih _ (Nat.mod_lt _ (Nat.two_pow_pos 512))).mp h
      refine ⟨(accountDecode c).toNat::ds,forall_mem_cons.mpr ⟨hlt,hds⟩,?_,hvalue _ ds⟩
      rw [map_cons,henc]
    · rintro ⟨_ | ⟨d,ds⟩,hds,hcs,rfl⟩
      · cases hcs
      · obtain ⟨rfl,rfl⟩ := List.cons.inj hcs
        obtain ⟨hd,hds⟩ := forall_mem_cons.mp hds
        obtain ⟨hdec,hlo,hhi⟩ := decode_encode d hd
        have hbyte : (BitVec.ofNat 8 d).toNat = d := by
          rw [BitVec.toNat_ofNat]
          omega
        have hne : BitVec.ofNat 8 d ≠ 0x7e := by
          intro h
          have := congrArg BitVec.toNat h
          rw [hbyte] at this
          simp at this
          omega
        rw [if_neg (by omega),hdec,if_neg hne,hbyte]
        exact (ih _ (Nat.mod_lt _ (Nat.two_pow_pos 512))).mpr ⟨ds,hds,rfl,(hvalue d ds).symm⟩

theorem decodeLoop_some (cs : Bytes) (N : ℕ) :
    decodeLoop cs 0 = some N ↔ (∀ c ∈ cs, c ∈ accountLookup) ∧ numberOf cs = N := by
  rw [decodeLoop_eq cs 0 N (Nat.two_pow_pos 512)]
  constructor
  · rintro ⟨ds,hds,rfl,rfl⟩
    have hmap : (ds.map accountEncode).map accountLookup.idxOf = ds := by
      rw [map_map]
      exact (map_congr_left fun d hd => lookup_encode d (hds d hd)).trans (map_id ds)
    refine ⟨?_,?_⟩
    · rintro c hc
      obtain ⟨d,hd,rfl⟩ := mem_map.mp hc
      exact mem_lookup.mpr ⟨d,hds d hd,rfl⟩
    · rw [numberOf,hmap,Nat.zero_mul,Nat.zero_add]
  · rintro ⟨hcs,rfl⟩
    have henc : ∀ c ∈ cs, accountLookup.idxOf c < 32 ∧
        accountEncode (accountLookup.idxOf c) = c := by
      intro c hc
      obtain ⟨d,hd,rfl⟩ := mem_lookup.mp (hcs c hc)
      rw [lookup_encode d hd]
      exact ⟨hd,rfl⟩
    refine ⟨cs.map accountLookup.idxOf,?_,?_,?_⟩
    · rintro d hd
      obtain ⟨c,hc,rfl⟩ := mem_map.mp hd
      exact (henc c hc).1
    · rw [map_map]
      exact ((map_congr_left fun c hc => (henc c hc).2).trans (map_id cs)).symm
    · rw [numberOf,Nat.zero_mul,Nat.zero_add]

theorem checked_lt (k : Account) : checked blake k < 2*32^59 := by
  have := k.isLt
  have := (blake k).isLt
  unfold checked
  omega

theorem encodeAccount_eq (k : Account) : encodeAccount blake k =
    bytes "vxld_"++(digits 32 60 (checked blake k)).reverse.map accountEncode := by
  unfold encodeAccount
  rw [reverse_append,map_reverse]
  rfl

theorem encodeAccount_drop (k : Account) : (encodeAccount blake k).drop 5 =
    (digits 32 60 (checked blake k)).reverse.map accountEncode := by
  rw [encodeAccount_eq]
  exact List.drop_left' rfl

theorem fits : 2*32^59 < 2^512 := by
  decide +kernel

theorem value_lt {d : ℕ} {ds : List ℕ} (hlen : ds.length = 59) (h : ∀ e ∈ ds, e < 32) :
    Nat.ofDigits 32 (d::ds).reverse < 2*32^59 ↔ d < 2 := by
  have hlow : Nat.ofDigits 32 ds.reverse < 32^59 := by
    have := Nat.ofDigits_lt_base_pow_length (b := 32) (l := ds.reverse) (by decide)
      (by simpa using h)
    rwa [length_reverse,hlen] at this
  rw [reverse_cons,Nat.ofDigits_append,Nat.ofDigits_singleton,length_reverse,hlen]
  omega

theorem decode_word (cs : Bytes) (k : Account) (hlen : cs.length = 60) :
    ((cs[0]? = some 0x31 ∨ cs[0]? = some 0x33) ∧
      ∃ N, decodeLoop cs 0 = some N ∧ k = BitVec.ofNat 256 (N/2^40) ∧ N%2^40 = (blake k).toNat) ↔
      cs = (digits 32 60 (checked blake k)).reverse.map accountEncode := by
  constructor
  · rintro ⟨hfirst,N,hN,hk,hcheck⟩
    obtain ⟨ds,hds,rfl,hval⟩ := (decodeLoop_eq cs 0 N (Nat.two_pow_pos 512)).mp hN
    rw [length_map] at hlen
    obtain ⟨d,ds,rfl⟩ : ∃ d es, ds = d::es := exists_cons_of_length_eq_add_one hlen
    rw [length_cons] at hlen
    obtain ⟨hd,hes⟩ := forall_mem_cons.mp hds
    have hlow : d < 2 := (encode_low d hd).mp (by simpa using hfirst)
    have hlt := (value_lt (by omega) hes).mpr hlow
    generalize hV : Nat.ofDigits 32 (d::ds).reverse = V at hval hlt
    rw [Nat.zero_mul,Nat.zero_add,Nat.mod_eq_of_lt (hlt.trans fits)] at hval
    subst hval
    have hkey : k.toNat = N/2^40 := by
      rw [hk,BitVec.toNat_ofNat]
      omega
    have hchecked : checked blake k = N := by
      unfold checked
      omega
    have hword := digits_ofDigits (d::ds).reverse fun e he => hds e (mem_reverse.mp he)
    rw [length_reverse,length_cons,show ds.length+1 = 60 by omega,hV] at hword
    rw [hchecked,hword,reverse_reverse]
  · intro hcs
    have hN := ofDigits_digits (b := 32) 60 (checked blake k) ((checked_lt k).trans (by decide))
    have hlt : checked blake k < 2*32^59 := checked_lt k
    have hds : ∀ d ∈ (digits 32 60 (checked blake k)).reverse, d < 32 := fun d hd =>
      digits_lt (by decide) (mem_reverse.mp hd)
    rw [← reverse_reverse (digits 32 60 (checked blake k))] at hN
    have hlong : (digits 32 60 (checked blake k)).reverse.length = 60 := by simp
    generalize (digits 32 60 (checked blake k)).reverse = ds at hcs hN hds hlong
    obtain ⟨d,ds,rfl⟩ : ∃ d es, ds = d::es := exists_cons_of_length_eq_add_one hlong
    obtain ⟨hd,hes⟩ := forall_mem_cons.mp hds
    rw [length_cons] at hlong
    have hlow : d < 2 := (value_lt (by omega) hes).mp (hN ▸ hlt)
    refine ⟨?_,checked blake k,?_,?_,?_⟩
    · rw [hcs]
      simpa using (encode_low d hd).mpr hlow
    · refine (decodeLoop_eq cs 0 _ (Nat.two_pow_pos 512)).mpr ⟨d::ds,hds,hcs,?_⟩
      rw [hN,Nat.zero_mul,Nat.zero_add,Nat.mod_eq_of_lt (hlt.trans fits)]
    · apply BitVec.eq_of_toNat_eq
      have := k.isLt
      have := (blake k).isLt
      rw [BitVec.toNat_ofNat]
      unfold checked
      omega
    · have := (blake k).isLt
      unfold checked
      omega

end

section
variable {blake : Account → BitVec 40} {s : Bytes} {k : Account}

theorem decodeAccount_eq : decodeAccount blake s = some k ↔
    (accountPrefixed s || nodePrefixed s) = true ∧ (accountPrefixed s = true → s.length = 65) ∧
      ((s.drop 5)[0]? = some 0x31 ∨ (s.drop 5)[0]? = some 0x33) ∧
      ∃ N, decodeLoop (s.drop 5) 0 = some N ∧ k = BitVec.ofNat 256 (N/2^40) ∧
        N%2^40 = (blake k).toNat := by
  rw [getElem?_drop]
  unfold decodeAccount
  constructor
  · intro h
    split_ifs at h with h5 hlen hpre hfirst
    obtain ⟨N,hN,h⟩ := Option.bind_eq_some_iff.mp h
    dsimp only at h
    split_ifs at h with hcheck
    obtain rfl := Option.some.inj h
    exact ⟨hpre,fun ha => by_contra fun hne => hlen ⟨ha,hne⟩,hfirst,N,hN,rfl,hcheck⟩
  · rintro ⟨hpre,hlen,hfirst,N,hN,rfl,hcheck⟩
    have h5 : ¬ s.length < 5 := by
      intro h5
      rw [getElem?_eq_none (by omega)] at hfirst
      simp at hfirst
    rw [if_neg h5,if_neg fun h => h.2 (hlen h.1),if_pos hpre,if_pos hfirst,hN,Option.bind_some]
    exact if_pos hcheck

theorem node_not_account (h : nodePrefixed s = true) : accountPrefixed s = false := by
  rw [nodePrefixed,beq_iff_eq] at h
  rw [accountPrefixed,h]
  decide +kernel

theorem decodeAccount_wellFormed (hnode : nodePrefixed s = true) :
    (∃ k, decodeAccount blake s = some k) ↔ ¬ Malformed blake s := by
  constructor
  · rintro ⟨k,hk⟩
    obtain ⟨-,hacc,hfirst,N,hN,rfl,hcheck⟩ := decodeAccount_eq.mp hk
    obtain ⟨hdigits,rfl⟩ := (decodeLoop_some _ _).mp hN
    rintro (h | h | h)
    exacts [h hfirst,h hdigits,h hcheck]
  · intro h
    obtain ⟨hfirst,h⟩ := not_or.mp h
    obtain ⟨hdigits,hcheck⟩ := not_or.mp h
    refine ⟨_,decodeAccount_eq.mpr ⟨?_,fun h => ?_,not_not.mp hfirst,_,
      (decodeLoop_some _ _).mpr ⟨not_not.mp hdigits,rfl⟩,rfl,not_not.mp hcheck⟩⟩
    · rw [hnode,Bool.or_true]
    · rw [node_not_account hnode] at h
      cases h

theorem Canonical.length (h : Canonical blake s k) : s.length = 65 := by
  have hlen := congrArg List.length h.2
  rw [encodeAccount_drop,length_drop,length_map,length_reverse,
    length_digits] at hlen
  omega

theorem toAccount_canonical : Canonical blake (toAccount blake k) k := by
  rw [Canonical,toAccount,encodeAccount_eq]
  generalize List.map accountEncode _ = w
  exact ⟨rfl,rfl⟩

theorem node_prefixed (w : Bytes) : nodePrefixed (bytes "node"++(bytes "vxld_"++w).drop 4) = true ∧
    (bytes "node"++(bytes "vxld_"++w).drop 4).drop 5 = (bytes "vxld_"++w).drop 5 :=
  ⟨rfl,rfl⟩

theorem toNodeId_canonical : Canonical blake (toNodeId blake k) k := by
  unfold Canonical toNodeId toAccount
  rw [encodeAccount_eq]
  obtain ⟨hpre,hdrop⟩ := node_prefixed
    ((digits 32 60 (checked blake k)).reverse.map accountEncode)
  exact ⟨by rw [hpre,Bool.or_true],hdrop⟩

theorem decode_canonical (h : s.length = 65) :
    decodeAccount blake s = some k ↔ Canonical blake s k := by
  have hlen : (s.drop 5).length = 60 := by
    rw [length_drop,h]
  rw [decodeAccount_eq,decode_word _ _ hlen,← encodeAccount_drop]
  exact and_congr_right fun _ => and_iff_right fun _ => h

end

/-- A text is decoded to exactly the keys it is canonical for, unless it starts
like that of a node, does not have 65 characters and is well formed. The texts
of a key are decoded to it. -/
theorem decodeAccount_canonical_iff (blake : Account → BitVec 40) (s : Bytes) :
    ((∀ k, decodeAccount blake s = some k ↔ Canonical blake s k) ↔
      s.length = 65 ∨ nodePrefixed s = false ∨ Malformed blake s) ∧
    ∀ k, decodeAccount blake (toAccount blake k) = some k ∧
      decodeAccount blake (toNodeId blake k) = some k := by
  refine ⟨⟨fun h => ?_,?_⟩,fun k => ?_⟩
  · by_contra hc
    rw [not_or,not_or,Bool.not_eq_false] at hc
    obtain ⟨hlen,hnode,hform⟩ := hc
    obtain ⟨k,hk⟩ := (decodeAccount_wellFormed hnode).mpr hform
    exact hlen ((h k).mp hk).length
  · intro h k
    by_cases hlen : s.length = 65
    · exact decode_canonical hlen
    · refine iff_of_false (fun hk => ?_) fun hk => hlen hk.length
      rcases h.resolve_left hlen with hnode | hform
      · obtain ⟨hpre,hacc,-⟩ := decodeAccount_eq.mp hk
        rw [hnode,Bool.or_false] at hpre
        exact hlen (hacc hpre)
      · obtain ⟨hpre,hacc,-⟩ := decodeAccount_eq.mp hk
        have hnode : nodePrefixed s = true :=
          (Bool.or_eq_true _ _ ▸ hpre).resolve_left fun h => hlen (hacc h)
        exact (decodeAccount_wellFormed hnode).mp ⟨k,hk⟩ hform
  · exact ⟨(decode_canonical toAccount_canonical.length).mpr toAccount_canonical,
      (decode_canonical toNodeId_canonical.length).mpr toNodeId_canonical⟩

/-- A leading zero too many is accepted after the prefix of a node. -/
theorem node_zero_accepted :
    let s := bytes "node_1"++(encodeAccount (fun _ => 0) 0).drop 5
    decodeAccount (fun _ => 0) s = some 0 ∧ ¬ Canonical (fun _ => 0) s 0 := by
  refine ⟨by decide +kernel,fun h => ?_⟩
  have := h.length
  revert this
  decide +kernel

/-- Texts are ordered like keys. -/
theorem toAccount_lt (blake : Account → BitVec 40) (a b : Account) (h : a < b) :
    toAccount blake a < toAccount blake b := by
  have hlt : checked blake a < checked blake b := by
    have := (blake a).isLt
    have := (blake b).isLt
    unfold checked
    bv_omega
  rw [toAccount,toAccount,encodeAccount_eq,encodeAccount_eq,map_reverse,map_reverse]
  exact append_left_lt (digits_lex (by decide) (fun d e hde he => encode_lt e he d hde) 60 _ _
    hlt ((checked_lt b).trans (by decide)))

theorem toAccount_lt_sample : toAccount (fun _ => 5) 1 < toAccount (fun _ => 5) 2 :=
  toAccount_lt (fun _ => 5) 1 2 (by decide)

end Vxldollar.AccountTexts
