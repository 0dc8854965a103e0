import Vxldollar.Wallets

/-!
# Keeping private keys

A private key that a wallet has once given out can be fetched later from one of the
two wallets, if no operation overwrites it with something else. Watching an account
does so, and so do an import of the zero key and an insertion into a locked wallet.
-/

namespace Vxldollar.WalletKeys
open Std Blocks Wallets Function Option BitVec

section
variable (C : Crypto)

structure CryptoSound : Prop where
  inverse : ∀ x key iv, C.decrypt (C.encrypt x key iv) key iv = x
  injective : ∀ x y, C.pubKey x = C.pubKey y → x = y

/-- The ciphertext of a private key is large enough to be told from a marker. -/
def Large (s : Wallet) (prv : RawKey) : Prop :=
  2^64 ≤ (C.encrypt prv (walletKey C s) (oword0 (C.pubKey prv))).toNat

def Insertable (s : Wallet) (prv : RawKey) : Prop :=
  validPassword C s = true ∧ validPublicKey (C.pubKey prv) = true ∧ Large C s prv

/-- When an operation keeps the keys: keys are inserted into unlocked wallets and
under valid public keys, only an account without an entry of its own is
watched, only the right password is accepted, and an import meets no zero key. -/
def Careful (r : Bool → Entropy) (s : State) : Op → Prop
  | .insertAdhoc w prv => Insertable C (s w) prv
  | .deterministicInsert w _ => validPassword C (s w) = true ∧
      ∀ index, validPublicKey (C.pubKey (deterministicKey C (s w) index)) = true
  | .deterministicInsertAt w index => validPassword C (s w) = true ∧
      validPublicKey (C.pubKey (deterministicKey C (s w) index)) = true
  | .insertWatch w pub => (entryGetRaw (s w) pub).key = 0
  | .rekey _ _ => True
  | .attemptPassword w password => (attemptPassword C (s w) password).1 = false →
      walletKey C (attemptPassword C (s w) password).2 = (r w).walletKey
  | .workPut _ _ _ => True
  | .representativeSet _ _ => True
  | .move w _ => ∀ pub prv, fetch C (s !w) pub = some prv → Insertable C (s w) prv
  | .import_ w => ∀ pub prv, fetch C (s !w) pub = some prv → Insertable C (s w) prv ∧ prv ≠ 0

inductive Reaches (P : State → Op → Prop) (s : State) : State → Prop
  | refl : Reaches P s s
  | step {t u : State} {op : Op} : Reaches P s t → P t op → step C t op = some u → Reaches P s u

def start (r : Bool → Entropy) (representative : Bool → Account) : State :=
  fun w => create C (r w) (representative w)

end

section
variable {C : Crypto} {wallet seed prv : RawKey} {pub : Account} {v v' : WalletValue}

theorem readValue_pub (h : readValue C wallet seed pub v = some prv) : C.pubKey prv = pub :=
  of_decide_eq_true (filter_eq_some_iff.mp h).2

theorem readValue_zero (h : v.key = 0) : readValue C wallet seed pub v = none := by
  simp [readValue,h]

theorem readValue_key (h : v.key = v'.key) :
    readValue C wallet seed pub v = readValue C wallet seed pub v' := by
  simp only [readValue,keyType,h]

theorem readValue_adhoc (S : CryptoSound C)
    (hl : 2^64 ≤ (C.encrypt prv wallet (oword0 (C.pubKey prv))).toNat) :
    readValue C wallet seed (C.pubKey prv)
      ⟨C.encrypt prv wallet (oword0 (C.pubKey prv)),0⟩ = some prv := by
  have hne : C.encrypt prv wallet (oword0 (C.pubKey prv)) ≠ 0 := by
    intro h
    rw [h] at hl
    exact absurd hl (by decide)
  have ht : keyType ⟨C.encrypt prv wallet (oword0 (C.pubKey prv)),0⟩ = .adhoc :=
    if_pos (Nat.lt_of_lt_of_le (by decide) hl)
  rw [readValue,if_neg hne,ht]
  simp [S.inverse]

theorem marker_toNat (index : BitVec 32) : (marker index).toNat = 2^32+index.toNat := by
  have := index.isLt
  rw [marker,toNat_ofNat]
  apply Nat.mod_eq_of_lt
  omega

theorem markerIndex_marker (index : BitVec 32) : markerIndex (marker index) = index := by
  apply eq_of_toNat_eq
  have := index.isLt
  rw [markerIndex,extractLsb'_toNat,marker_toNat,Nat.shiftRight_zero]
  omega

theorem readValue_marker (index : BitVec 32) :
    readValue C wallet seed (C.pubKey (C.deterministicKey seed index)) ⟨marker index,0⟩ =
      some (C.deterministicKey seed index) := by
  have hlt := index.isLt
  have hn := marker_toNat index
  have hne : marker index ≠ 0 := by
    intro h
    rw [h] at hn
    have : (0 : RawKey).toNat = 0 := rfl
    omega
  have ht : keyType ⟨marker index,0⟩ = .deterministic := by
    unfold keyType
    rw [if_neg (by show ¬ (marker index).toNat > _; omega),
      if_pos (by show (marker index).toNat/_ = 1; omega)]
  rw [readValue,if_neg hne,ht]
  simp [markerIndex_marker]

end

section
variable {C : Crypto} {s t : Wallet} {r : Entropy} {pub p : Account} {v : WalletValue}
  {prv : RawKey}

theorem entryGetRaw_put : entryGetRaw (entryPutRaw s pub v) p =
    if p = pub then v else entryGetRaw s p := by
  unfold entryGetRaw entryPutRaw
  rw [Table.get_insert]
  split_ifs <;> rfl

theorem entryGetRaw_erase : entryGetRaw (erase s pub) p =
    if p = pub then ⟨0,0⟩ else entryGetRaw s p := by
  unfold entryGetRaw erase
  rw [Table.get_erase]
  split_ifs <;> rfl

structure SameLock (s t : Wallet) : Prop where
  password : t.password = s.password
  walletKeyMem : t.walletKeyMem = s.walletKeyMem
  salt : (entryGetRaw t saltSpecial).key = (entryGetRaw s saltSpecial).key
  check : (entryGetRaw t checkSpecial).key = (entryGetRaw s checkSpecial).key
  seed : (entryGetRaw t seedSpecial).key = (entryGetRaw s seedSpecial).key

section
variable (h : SameLock s t)
include h

theorem SameLock.walletKey : walletKey C t = walletKey C s := by
  rw [Wallets.walletKey,Wallets.walletKey,Wallets.salt,Wallets.salt,h.password,h.walletKeyMem,
    h.salt]

theorem SameLock.validPassword : validPassword C t = validPassword C s := by
  rw [Wallets.validPassword,Wallets.validPassword,h.walletKey,Wallets.salt,Wallets.salt,h.salt,
    Wallets.check,Wallets.check,h.check]

theorem SameLock.seed_eq : Wallets.seed C t = Wallets.seed C s := by
  rw [Wallets.seed,Wallets.seed,Wallets.salt,Wallets.salt,h.walletKey,h.seed,h.salt]

theorem SameLock.trans {u : Wallet} (h' : SameLock t u) : SameLock s u :=
  ⟨h'.password.trans h.password,h'.walletKeyMem.trans h.walletKeyMem,h'.salt.trans h.salt,
    h'.check.trans h.check,h'.seed.trans h.seed⟩

end

theorem valid_ne (hp : validPublicKey pub = true) : saltSpecial ≠ pub ∧ checkSpecial ≠ pub ∧
    seedSpecial ≠ pub ∧ representativeSpecial ≠ pub ∧ deterministicIndexSpecial ≠ pub ∧
    walletKeySpecial ≠ pub := by
  refine ⟨?_,?_,?_,?_,?_,?_⟩ <;> rintro rfl <;> exact absurd hp (by decide)

theorem sameLock_put_ne (h : saltSpecial ≠ pub ∧ checkSpecial ≠ pub ∧ seedSpecial ≠ pub) :
    SameLock s (entryPutRaw s pub v) := by
  refine ⟨rfl,rfl,?_,?_,?_⟩
  · rw [entryGetRaw_put,if_neg h.1]
  · rw [entryGetRaw_put,if_neg h.2.1]
  · rw [entryGetRaw_put,if_neg h.2.2]

theorem sameLock_put (hp : validPublicKey pub = true) : SameLock s (entryPutRaw s pub v) := by
  obtain ⟨h1,h3,h5,-⟩ := valid_ne hp
  exact sameLock_put_ne ⟨h1,h3,h5⟩

theorem sameLock_erase (hp : validPublicKey pub = true) : SameLock s (erase s pub) := by
  obtain ⟨h1,h3,h5,-⟩ := valid_ne hp
  refine ⟨rfl,rfl,?_,?_,?_⟩
  · rw [entryGetRaw_erase,if_neg h1]
  · rw [entryGetRaw_erase,if_neg h3]
  · rw [entryGetRaw_erase,if_neg h5]

structure Good (C : Crypto) (r : Entropy) (s : Wallet) : Prop where
  salt : Wallets.salt s = r.salt
  check : Wallets.check s = C.encrypt 0 r.walletKey (oword0 r.salt)
  seed : (entryGetRaw s seedSpecial).key = C.encrypt r.seed r.walletKey (oword1 r.salt)
  unlocked : validPassword C s = true → walletKey C s = r.walletKey

theorem Good.same (G : Good C r s) (h : SameLock s t) : Good C r t where
  salt := h.salt.trans G.salt
  check := h.check.trans G.check
  seed := h.seed.trans G.seed
  unlocked := by
    rw [h.validPassword,h.walletKey]
    exact G.unlocked

theorem Good.seed_eq (S : CryptoSound C) (G : Good C r s) (hv : validPassword C s = true) :
    Wallets.seed C s = r.seed := by
  rw [Wallets.seed,G.seed,G.unlocked hv,G.salt,S.inverse]

def Holds (C : Crypto) (r : Entropy) (s : Wallet) (pub : Account) (prv : RawKey) : Prop :=
  readValue C r.walletKey r.seed pub (entryGetRaw s pub) = some prv

theorem Good.fetch (S : CryptoSound C) (G : Good C r s) (hv : validPassword C s = true) :
    fetch C s pub = some prv ↔ Holds C r s pub prv := by
  rw [Wallets.fetch,if_pos hv,G.unlocked hv,G.seed_eq S hv]
  rfl

theorem fetch_valid (h : fetch C s pub = some prv) : validPassword C s = true := by
  by_contra hv
  rw [fetch,if_neg hv] at h
  cases h

theorem fetch_pub (h : fetch C s pub = some prv) : C.pubKey prv = pub := by
  rw [fetch,if_pos (fetch_valid h)] at h
  exact readValue_pub h

theorem holds_put (S : CryptoSound C) {k : Account}
    (hv : (entryGetRaw s k).key = 0 ∨ ∃ x, readValue C r.walletKey r.seed k v = some x)
    (h : Holds C r s pub prv) : Holds C r (entryPutRaw s k v) pub prv := by
  unfold Holds at h ⊢
  rw [entryGetRaw_put]
  split_ifs with e
  · subst e
    rcases hv with h0 | ⟨x,hx⟩
    · rw [readValue_zero h0] at h
      cases h
    · rw [hx,S.injective x prv ((readValue_pub hx).trans (readValue_pub h).symm)]
  · exact h

theorem holds_erase (h : Holds C r s pub prv) (hne : pub ≠ p) : Holds C r (erase s p) pub prv := by
  unfold Holds at h ⊢
  rwa [entryGetRaw_erase,if_neg hne]

end

section
variable {C : Crypto} {s t u dst src : Wallet} {r q : Entropy} {pub p k : Account} {prv : RawKey}

structure Keeps (C : Crypto) (r : Entropy) (s t : Wallet) : Prop where
  good : Good C r t
  holds : ∀ pub prv, validPublicKey pub = true → Holds C r s pub prv → Holds C r t pub prv

theorem Keeps.trans (h : Keeps C r s t) (h' : Keeps C r t u) : Keeps C r s u :=
  ⟨h'.good,fun pub prv hp hh => h'.holds pub prv hp (h.holds pub prv hp hh)⟩

theorem special_keeps {v : WalletValue} (G : Good C r s)
    (hk : k = representativeSpecial ∨ k = deterministicIndexSpecial) :
    Keeps C r s (entryPutRaw s k v) := by
  have hne : saltSpecial ≠ k ∧ checkSpecial ≠ k ∧ seedSpecial ≠ k := by
    rcases hk with rfl | rfl <;> decide
  refine ⟨G.same (sameLock_put_ne hne),fun pub prv hp hh => ?_⟩
  have hpk : pub ≠ k := by
    obtain ⟨-,-,-,h4,h6,-⟩ := valid_ne hp
    rcases hk with rfl | rfl
    · exact h4.symm
    · exact h6.symm
  unfold Holds at hh ⊢
  rwa [entryGetRaw_put,if_neg hpk]

section
variable (S : CryptoSound C) (G : Good C r s)
include S G

theorem insertAdhoc_reads (hi : Insertable C s prv) :
    Holds C r (insertAdhoc C s prv) (C.pubKey prv) prv := by
  obtain ⟨hv,-,hl⟩ := hi
  unfold Holds insertAdhoc
  rw [entryGetRaw_put,if_pos rfl,G.unlocked hv]
  rw [Large,G.unlocked hv] at hl
  exact readValue_adhoc S hl

theorem insertAdhoc_keeps (hi : Insertable C s prv) : Keeps C r s (insertAdhoc C s prv) := by
  refine ⟨G.same (sameLock_put hi.2.1),fun p x _ hh => holds_put S (.inr ⟨prv,?_⟩) hh⟩
  have h := insertAdhoc_reads S G hi
  unfold Holds insertAdhoc at h
  rwa [entryGetRaw_put,if_pos rfl] at h

theorem deterministicInsertAt_keeps (hv : validPassword C s = true) {index : BitVec 32}
    (hp : validPublicKey (C.pubKey (deterministicKey C s index)) = true) :
    Keeps C r s (deterministicInsertAt C s index) := by
  have hread : readValue C r.walletKey r.seed (C.pubKey (deterministicKey C s index))
      ⟨marker index,0⟩ = some (deterministicKey C s index) := by
    rw [deterministicKey,G.seed_eq S hv]
    exact readValue_marker index
  exact ⟨G.same (sameLock_put hp),fun p x _ hh => holds_put S (.inr ⟨_,hread⟩) hh⟩

theorem deterministicInsert_keeps (hv : validPassword C s = true) {fuel : ℕ}
    (hp : ∀ index, validPublicKey (C.pubKey (deterministicKey C s index)) = true)
    (ht : deterministicInsert C fuel s = some t) : Keeps C r s t := by
  obtain ⟨index,-,ht⟩ := bind_eq_some_iff.mp ht
  cases ht
  have h := deterministicInsertAt_keeps S G hv (hp index)
  exact h.trans (special_keeps h.good (.inr rfl))

theorem insertWatch_keeps (h0 : (entryGetRaw s pub).key = 0) :
    Keeps C r s (insertWatch s pub).2 := by
  unfold insertWatch
  split_ifs with hp
  · exact ⟨G.same (sameLock_put hp),fun p x _ hh => holds_put S (.inl h0) hh⟩
  · exact ⟨G,fun _ _ _ hh => hh⟩

end

theorem workPut_keeps (G : Good C r s) (work : BitVec 64) : Keeps C r s (workPut s pub work) := by
  have hkey : ∀ k, (entryGetRaw (workPut s pub work) k).key = (entryGetRaw s k).key := by
    intro k
    rw [workPut,entryGetRaw_put]
    split_ifs with e
    · rw [e]
    · rfl
  refine ⟨G.same ⟨rfl,rfl,hkey _,hkey _,hkey _⟩,fun p x _ hh => ?_⟩
  unfold Holds at hh ⊢
  rwa [readValue_key (hkey p)]

theorem rekey_keeps (S : CryptoSound C) (G : Good C r s) (password : String) :
    Keeps C r s (rekey C s password).2 := by
  by_cases hv : validPassword C s = true
  · have hget : ∀ k, k ≠ walletKeySpecial →
        entryGetRaw (rekey C s password).2 k = entryGetRaw s k := by
      intro k hk
      rw [rekey,if_pos hv,entryGetRaw_put,if_neg hk]
      rfl
    have hkey : C.decrypt (rekey C s password).2.walletKeyMem (rekey C s password).2.password
        (oword0 (salt s)) = r.walletKey := by
      rw [rekey,if_pos hv]
      exact (S.inverse _ _ _).trans (G.unlocked hv)
    generalize (rekey C s password).2 = t at hget hkey
    have hsalt : salt t = salt s := by
      rw [salt,hget _ (by decide),salt]
    refine ⟨⟨hsalt.trans G.salt,?_,?_,fun _ => ?_⟩,fun p x hp hh => ?_⟩
    · rw [check,hget _ (by decide)]
      exact G.check
    · rw [hget _ (by decide)]
      exact G.seed
    · rwa [walletKey,hsalt]
    · unfold Holds at hh ⊢
      rwa [hget p (valid_ne hp).2.2.2.2.2.symm]
  · rw [rekey,if_neg hv]
    exact ⟨G,fun _ _ _ hh => hh⟩

theorem attemptPassword_keeps (G : Good C r s) {password : String}
    (hp : (attemptPassword C s password).1 = false →
      walletKey C (attemptPassword C s password).2 = r.walletKey) :
    Keeps C r s (attemptPassword C s password).2 := by
  refine ⟨⟨G.salt,G.check,G.seed,fun hv => hp ?_⟩,fun _ _ _ hh => hh⟩
  exact congrArg (!·) hv

def Either (C : Crypto) (r q : Entropy) (dst src : Wallet) (pub : Account) (prv : RawKey) : Prop :=
  Holds C r dst pub prv ∨ Holds C q src pub prv

theorem fetch_erase (hp : validPublicKey p = true) (h : fetch C (erase s p) pub = some prv) :
    fetch C s pub = some prv := by
  have hl : SameLock s (erase s p) := sameLock_erase hp
  rw [fetch,hl.validPassword,hl.walletKey,hl.seed_eq,entryGetRaw_erase] at h
  rw [fetch]
  split_ifs at h ⊢ with hv e
  · cases h
  · exact h

theorem Insertable.same (h : Insertable C s prv) (hl : SameLock s t) : Insertable C t prv := by
  refine ⟨hl.validPassword.trans h.1,h.2.1,?_⟩
  rw [Large,hl.walletKey]
  exact h.2.2

theorem transfer_keeps (S : CryptoSound C) {insert : Wallet → Account → RawKey → Wallet}
    (keys : List Account) (G : Good C r dst) (H : Good C q src)
    (hi : ∀ pub prv, fetch C src pub = some prv →
      Insertable C dst prv ∧ ∀ d, insert d pub prv = insertAdhoc C d prv)
    {out : Bool × Wallet × Wallet}
    (hout : transfer C insert dst src keys = out) :
    Good C r out.2.1 ∧ Good C q out.2.2 ∧ ∀ pub prv, validPublicKey pub = true →
      Either C r q dst src pub prv → Either C r q out.2.1 out.2.2 pub prv := by
  induction keys generalizing dst src with
  | nil =>
    subst hout
    exact ⟨G,H,fun _ _ _ h => h⟩
  | cons key keys ih =>
    rw [transfer] at hout
    cases hf : fetch C src key with
    | none =>
      rw [hf] at hout
      subst hout
      exact ⟨G,H,fun _ _ _ h => h⟩
    | some x =>
      obtain ⟨hx,hins⟩ := hi key x hf
      have hpub := fetch_pub hf
      have hvalid : validPublicKey key = true := hpub ▸ hx.2.1
      have K := insertAdhoc_keeps S G hx
      rw [hf] at hout
      simp only [hins] at hout
      have hi' : ∀ pub prv, fetch C (erase src key) pub = some prv →
          Insertable C (insertAdhoc C dst x) prv ∧ ∀ d, insert d pub prv = insertAdhoc C d prv := by
        intro pub prv h
        obtain ⟨hy,hins'⟩ := hi pub prv (fetch_erase hvalid h)
        exact ⟨hy.same (sameLock_put hx.2.1),hins'⟩
      obtain ⟨hG,hH,hkeep⟩ := ih K.good (H.same (sameLock_erase hvalid)) hi' hout
      refine ⟨hG,hH,fun pub prv hp h => hkeep pub prv hp ?_⟩
      rcases h with h | h
      · exact Or.inl (K.holds pub prv hp h)
      · by_cases e : pub = key
        · -- the key itself has moved
          subst e
          have hsame := (H.fetch S (fetch_valid hf)).mpr h
          cases hf.symm.trans hsame
          exact Or.inl (hpub ▸ insertAdhoc_reads S G hx)
        · exact Or.inr (holds_erase h e)

end

section
variable {C : Crypto} {r : Bool → Entropy} {s t : State} {op : Op} {pub : Account} {prv : RawKey}
  {w : Bool}

def Inv (C : Crypto) (r : Bool → Entropy) (s : State) : Prop := ∀ w, Good C (r w) (s w)

def Held (C : Crypto) (r : Bool → Entropy) (s : State) (pub : Account) (prv : RawKey) : Prop :=
  ∃ w, Holds C (r w) (s w) pub prv

theorem update_keeps {x : Wallet} (I : Inv C r s) (K : Keeps C (r w) (s w) x) :
    Inv C r (update s w x) ∧ ∀ pub prv, validPublicKey pub = true → Held C r s pub prv →
      Held C r (update s w x) pub prv := by
  refine ⟨fun v => ?_,fun pub prv hp hh => ?_⟩
  · by_cases e : v = w
    · subst e
      rw [update_self]
      exact K.good
    · rw [update_of_ne e]
      exact I v
  · obtain ⟨v,hv⟩ := hh
    refine ⟨v,?_⟩
    by_cases e : v = w
    · subst e
      rw [update_self]
      exact K.holds pub prv hp hv
    · rw [update_of_ne e]
      exact hv

theorem transferred_keeps {out : Bool × Wallet × Wallet}
    (h : Good C (r w) out.2.1 ∧ Good C (r !w) out.2.2 ∧ ∀ pub prv, validPublicKey pub = true →
      Either C (r w) (r !w) (s w) (s !w) pub prv → Either C (r w) (r !w) out.2.1 out.2.2 pub prv) :
    Inv C r (transferred w out) ∧ ∀ pub prv, validPublicKey pub = true → Held C r s pub prv →
      Held C r (transferred w out) pub prv := by
  obtain ⟨hG,hH,hkeep⟩ := h
  have hself : transferred w out w = out.2.1 := if_pos rfl
  have hother : transferred w out (!w) = out.2.2 := if_neg (by simp)
  have hcases : ∀ v, v = w ∨ v = !w := by
    intro v
    cases v <;> cases w <;> simp
  refine ⟨fun v => ?_,fun pub prv hp hh => ?_⟩
  · rcases hcases v with rfl | rfl
    · rwa [hself]
    · rwa [hother]
  · obtain ⟨v,hv⟩ := hh
    have he : Either C (r w) (r !w) (s w) (s !w) pub prv := by
      rcases hcases v with rfl | rfl
      · exact .inl hv
      · exact .inr hv
    rcases hkeep pub prv hp he with h | h
    · exact ⟨w,hself ▸ h⟩
    · exact ⟨!w,hother ▸ h⟩

/-- A careful operation keeps every key in one of the wallets. -/
theorem step_keeps (S : CryptoSound C) (I : Inv C r s) (hc : Careful C r s op)
    (hs : step C s op = some t) : Inv C r t ∧ ∀ pub prv, validPublicKey pub = true →
      Held C r s pub prv → Held C r t pub prv := by
  cases op with
  | insertAdhoc w x =>
    cases hs
    exact update_keeps I (insertAdhoc_keeps S (I w) hc)
  | deterministicInsert w fuel =>
    obtain ⟨x,hx,rfl⟩ := map_eq_some_iff.mp hs
    exact update_keeps I (deterministicInsert_keeps S (I w) hc.1 hc.2 hx)
  | deterministicInsertAt w index =>
    cases hs
    exact update_keeps I (deterministicInsertAt_keeps S (I w) hc.1 hc.2)
  | insertWatch w pub =>
    cases hs
    exact update_keeps I (insertWatch_keeps S (I w) hc)
  | rekey w password =>
    cases hs
    exact update_keeps I (rekey_keeps S (I w) password)
  | attemptPassword w password =>
    cases hs
    exact update_keeps I (attemptPassword_keeps (I w) hc)
  | workPut w pub work =>
    cases hs
    exact update_keeps I (workPut_keeps (I w) work)
  | representativeSet w representative =>
    cases hs
    exact update_keeps I (special_keeps (I w) (.inl rfl))
  | move w keys =>
    cases hs
    apply transferred_keeps
    exact transfer_keeps S keys (I w) (I !w) (fun pub prv h => ⟨hc pub prv h,fun _ => rfl⟩) rfl
  | import_ w =>
    cases hs
    apply transferred_keeps
    refine transfer_keeps S _ (I w) (I !w) (fun pub prv h => ?_) rfl
    exact ⟨(hc pub prv h).1,fun _ => if_pos (hc pub prv h).2⟩

theorem run_keeps (S : CryptoSound C) (I : Inv C r s) (hr : Reaches C (Careful C r) s t) :
    Inv C r t ∧ ∀ pub prv, validPublicKey pub = true → Held C r s pub prv → Held C r t pub prv := by
  induction hr with
  | refl => exact ⟨I,fun _ _ _ h => h⟩
  | step _ hc hs ih =>
    obtain ⟨I',hkeep⟩ := step_keeps S ih.1 hc hs
    exact ⟨I',fun pub prv hp h => hkeep pub prv hp (ih.2 pub prv hp h)⟩

theorem start_inv (S : CryptoSound C) (representative : Bool → Account) :
    Inv C r (start C r representative) := by
  intro w
  have hsalt : salt (create C (r w) (representative w)) = (r w).salt := by
    simp only [salt]
    rfl
  refine ⟨hsalt,?_,?_,fun _ => ?_⟩
  · simp only [start]
    rfl
  · simp only [start]
    rfl
  · rw [walletKey,start,hsalt]
    exact S.inverse _ _ _

end

/-- A key that some wallet has given out can be fetched from one of the wallets, when
both are unlocked, after any careful operations. -/
theorem keys_kept {C : Crypto} (S : CryptoSound C) {r : Bool → Entropy}
    {representative : Bool → Account} {s t : State} {w : Bool} {pub : Account} {prv : RawKey}
    (hs : Reaches C (Careful C r) (start C r representative) s)
    (ht : Reaches C (Careful C r) s t) (hpub : validPublicKey pub = true)
    (hf : fetch C (s w) pub = some prv) (hu : ∀ v, validPassword C (t v) = true) :
    ∃ v, fetch C (t v) pub = some prv := by
  obtain ⟨I,-⟩ := run_keeps S (start_inv S representative) hs
  obtain ⟨J,hkeep⟩ := run_keeps S I ht
  have hheld : Held C r s pub prv := ⟨w,((I w).fetch S (fetch_valid hf)).mp hf⟩
  obtain ⟨v,hv⟩ := hkeep pub prv hpub hheld
  exact ⟨v,((J v).fetch S (hu v)).mpr hv⟩

def sampleCrypto : Crypto where
  encrypt x key _ := x ^^^ key
  decrypt x key _ := x ^^^ key
  pubKey x := x+100
  deterministicKey seed index := seed+index.setWidth 256
  phs password _ := if password = "right" then 0 else 1

theorem sampleCrypto_sound : CryptoSound sampleCrypto where
  inverse x key _ := by
    show x ^^^ key ^^^ key = x
    rw [xor_assoc,BitVec.xor_self,xor_zero]
  injective x y h := by simpa [sampleCrypto] using h

def sampleEntropy : Bool → Entropy
  | false => ⟨5,twoPow 256 200,twoPow 256 180⟩
  | true => ⟨6,twoPow 256 201,twoPow 256 181⟩

def sampleStart : State := start sampleCrypto sampleEntropy (fun _ => 0)

def runOps (s : State) : List Op → Option State
  | [] => some s
  | op::ops => (step sampleCrypto s op).bind (fun t => runOps t ops)

theorem runOps_reaches {s t u : State} {ops : List Op}
    (hs : Reaches sampleCrypto (fun _ _ => True) s t) (h : runOps t ops = some u) :
    Reaches sampleCrypto (fun _ _ => True) s u := by
  induction ops generalizing t with
  | nil =>
    cases h
    exact hs
  | cons op ops ih =>
    obtain ⟨v,hv,h⟩ := bind_eq_some_iff.mp h
    exact ih (hs.step trivial hv) h

theorem keys_kept_sample : ∃ s t v,
    Reaches sampleCrypto (Careful sampleCrypto sampleEntropy) sampleStart s ∧
    Reaches sampleCrypto (Careful sampleCrypto sampleEntropy) s t ∧
    fetch sampleCrypto (s false) 150 = some 50 ∧ fetch sampleCrypto (t v) 150 = some 50 := by
  let s := update sampleStart false (insertAdhoc sampleCrypto (sampleStart false) 50)
  let m := update s false (rekey sampleCrypto (s false) "other").2
  let t := update m false (representativeSet (m false) 9)
  have hlarge : Large sampleCrypto (sampleStart false) 50 := by
    unfold Large
    decide +kernel
  have hinsert : Careful sampleCrypto sampleEntropy sampleStart (.insertAdhoc false 50) :=
    ⟨by decide +kernel,by decide +kernel,hlarge⟩
  have hrekey : Careful sampleCrypto sampleEntropy s (.rekey false "other") := trivial
  have hset : Careful sampleCrypto sampleEntropy m (.representativeSet false 9) := trivial
  have hs : Reaches sampleCrypto (Careful sampleCrypto sampleEntropy) sampleStart s :=
    .step .refl hinsert rfl
  have ht : Reaches sampleCrypto (Careful sampleCrypto sampleEntropy) s t :=
    .step (.step .refl hrekey rfl) hset rfl
  have hf : fetch sampleCrypto (s false) 150 = some 50 := by decide +kernel
  obtain ⟨v,hv⟩ := keys_kept sampleCrypto_sound hs ht (by decide) hf (by decide +kernel)
  exact ⟨s,t,v,hs,ht,hf,hv⟩

def watchRun : List Op := [.insertWatch false 150]

def zeroRun : List Op := [.import_ true]

def lockedRun : List Op :=
  [.attemptPassword false "wrong",.insertAdhoc false 50,.attemptPassword false "right"]

/-- Each of the three loses a key that was fetched before. -/
theorem keys_lost : CryptoSound sampleCrypto ∧
    ∀ x ∈ [((50 : RawKey),watchRun),(0,zeroRun),(50,lockedRun)],
      ∃ s t, Reaches sampleCrypto (fun _ _ => True) sampleStart s ∧
        Reaches sampleCrypto (fun _ _ => True) s t ∧
        fetch sampleCrypto (s false) (sampleCrypto.pubKey x.1) = some x.1 ∧
        validPublicKey (sampleCrypto.pubKey x.1) = true ∧
        (∀ v, validPassword sampleCrypto (t v) = true) ∧
        ∀ v, fetch sampleCrypto (t v) (sampleCrypto.pubKey x.1) = none := by
  refine ⟨sampleCrypto_sound,fun x hx => ?_⟩
  have hrun : ((runOps sampleStart [.insertAdhoc false x.1]).any (fun s =>
      fetch sampleCrypto (s false) (sampleCrypto.pubKey x.1) = some x.1 ∧
      validPublicKey (sampleCrypto.pubKey x.1) = true ∧
      (runOps s x.2).any (fun t => (∀ v, validPassword sampleCrypto (t v) = true) ∧
        ∀ v, fetch sampleCrypto (t v) (sampleCrypto.pubKey x.1) = none))) = true := by
    simp only [List.mem_cons,List.not_mem_nil,or_false] at hx
    rcases hx with rfl | rfl | rfl <;> decide +kernel
  obtain ⟨s,hs,h⟩ := (any_eq_true _ _).mp hrun
  obtain ⟨hf,hp,h⟩ := of_decide_eq_true h
  obtain ⟨t,ht,h⟩ := (any_eq_true _ _).mp h
  obtain ⟨hu,hn⟩ := of_decide_eq_true h
  exact ⟨s,t,runOps_reaches .refl hs,runOps_reaches .refl ht,hf,hp,hu,hn⟩
end Vxldollar.WalletKeys
