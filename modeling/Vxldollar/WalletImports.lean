import Vxldollar.WalletKeys

/-!
# Importing a wallet

An import moves the accounts of one wallet into another one after the other. It
ends at the first account whose key cannot be fetched, and a watched account is
one. So it moves everything when it meets only private keys that can be read
from what they become in the other wallet.
-/

namespace Vxldollar.WalletImports
open Std Blocks Wallets WalletKeys Option List

variable {C : Crypto} {dst src dst' src' : Wallet} {p pub : Account} {prv : RawKey}

def moved (C : Crypto) (dst : Wallet) (pub : Account) (prv : RawKey) : WalletValue :=
  if prv ≠ 0 then ⟨C.encrypt prv (walletKey C dst) (oword0 pub),0⟩ else ⟨0,0⟩

/-- Everything has been transferred: the import reports no error, the accounts
of the source are in the target with their keys or as watched accounts, the
target has lost no key and the source is empty. -/
def Transferred (C : Crypto) (dst src : Wallet) (out : Bool × Wallet × Wallet) : Prop :=
  out.1 = false ∧
    (∀ pub, exist src pub = true → exist out.2.1 pub = true ∧ match fetch C src pub with
      | some prv => fetch C out.2.1 pub = some prv
      | none => (entryGetRaw out.2.1 pub).key = 0) ∧
    (∀ pub prv, exist dst pub = true → fetch C dst pub = some prv →
      fetch C out.2.1 pub = some prv) ∧
    ∀ pub, exist out.2.2 pub = false

section
theorem fetch_same {s t : Wallet} (h : SameLock s t) (hv : validPassword C s = true) :
    fetch C t pub = readValue C (walletKey C s) (seed C s) pub (entryGetRaw t pub) := by
  rw [fetch,h.validPassword,if_pos hv,h.walletKey,h.seed_eq]

theorem import_insert (hp : validPublicKey pub = true) (hf : fetch C src pub = some prv) :
    (if prv ≠ 0 then insertAdhoc C dst prv else (insertWatch dst pub).2) =
      entryPutRaw dst pub (moved C dst pub prv) := by
  unfold moved
  split_ifs
  · rw [insertAdhoc,fetch_pub hf]
  · rw [insertWatch,if_pos hp]

theorem fetch_erase_ne (hp : validPublicKey p = true) (hv : validPassword C src = true)
    (hne : pub ≠ p) : fetch C (erase src p) pub = fetch C src pub := by
  rw [fetch_same (sameLock_erase hp) hv,entryGetRaw_erase,if_neg hne,fetch,if_pos hv]

variable {insert : Wallet → Account → RawKey → Wallet}

theorem transfer_spec
    (hins : ∀ dst src pub prv, validPublicKey pub = true → fetch C src pub = some prv →
      insert dst pub prv = entryPutRaw dst pub (moved C dst pub prv))
    (keys : List Account) (hnd : keys.Nodup) (hk : ∀ p ∈ keys, validPublicKey p = true)
    (hv : validPassword C src = true) (h : transfer C insert dst src keys = (false,dst',src')) :
    SameLock dst dst' ∧
      (∀ p ∈ keys, ∃ prv, fetch C src p = some prv ∧ src'.table[p]? = none ∧
        dst'.table[p]? = some (moved C dst p prv)) ∧
      ∀ p, p ∉ keys → dst'.table[p]? = dst.table[p]? ∧ src'.table[p]? = src.table[p]? := by
  induction keys generalizing dst src with
  | nil =>
    cases h
    exact ⟨⟨rfl,rfl,rfl,rfl,rfl⟩,nofun,fun _ _ => ⟨rfl,rfl⟩⟩
  | cons key keys ih =>
    obtain ⟨hnot,hnd⟩ := nodup_cons.mp hnd
    obtain ⟨hkey,hk⟩ := forall_mem_cons.mp hk
    rw [transfer] at h
    cases hf : fetch C src key with
    | none =>
      rw [hf] at h
      cases h
    | some x =>
      simp only [hf,hins dst src key x hkey hf] at h
      have hlock : SameLock dst (entryPutRaw dst key (moved C dst key x)) := sameLock_put hkey
      have hv' := (sameLock_erase hkey).validPassword.trans hv
      obtain ⟨hl,hin,hout⟩ := ih hnd hk hv' h
      have hout' : ∀ p, p ∉ keys →
          dst'.table[p]? = (if p = key then some (moved C dst key x) else dst.table[p]?) ∧
          src'.table[p]? = if p = key then none else src.table[p]? := by
        intro p hp
        rw [(hout p hp).1,(hout p hp).2,entryPutRaw,erase,Table.get_insert,Table.get_erase]
        exact ⟨rfl,rfl⟩
      refine ⟨hlock.trans hl,fun p hp => ?_,fun p hp => ?_⟩
      · rcases mem_cons.mp hp with rfl | hp
        · obtain ⟨h1,h2⟩ := hout' p hnot
          rw [if_pos rfl] at h1 h2
          exact ⟨x,hf,h2,h1⟩
        · obtain ⟨prv,hprv,hs,hd⟩ := hin p hp
          rw [fetch_erase_ne hkey hv (ne_of_mem_of_not_mem hp hnot)] at hprv
          rw [moved,hlock.walletKey] at hd
          exact ⟨prv,hprv,hs,hd⟩
      · obtain ⟨h1,h2⟩ := hout' p (fun h => hp (mem_cons_of_mem _ h))
        have hne : p ≠ key := fun h => hp (h ▸ mem_cons_self)
        rw [if_neg hne] at h1 h2
        exact ⟨h1,h2⟩

theorem transfer_stops (keys : List Account) (hnd : keys.Nodup)
    (hk : ∀ p ∈ keys, validPublicKey p = true) (hv : validPassword C src = true)
    (h : transfer C insert dst src keys = (true,dst',src')) :
    ∃ p ∈ keys, fetch C src p = none := by
  induction keys generalizing dst src with
  | nil => cases h
  | cons key keys ih =>
    obtain ⟨hnot,hnd⟩ := nodup_cons.mp hnd
    obtain ⟨hkey,hk⟩ := forall_mem_cons.mp hk
    cases hf : fetch C src key with
    | none => exact ⟨key,mem_cons_self,hf⟩
    | some x =>
      rw [transfer,hf] at h
      obtain ⟨p,hp,hn⟩ := ih hnd hk ((sameLock_erase hkey).validPassword.trans hv) h
      rw [fetch_erase_ne hkey hv (ne_of_mem_of_not_mem hp hnot)] at hn
      exact ⟨p,mem_cons_of_mem _ hp,hn⟩

end

variable {s : Wallet}

theorem exist_iff : exist s pub = true ↔
    validPublicKey pub = true ∧ s.table[pub]? ≠ none := by
  simp [exist]

theorem mem_accounts :
    pub ∈ (s.table.toList.map Prod.fst).filter validPublicKey ↔ exist s pub = true := by
  simp [exist,and_comm]

/-- An import between unlocked wallets transfers everything exactly when each
account of the source has a private key that is read from the entry it gets in
the target. -/
theorem import_transfers (S : CryptoSound C) (hd : validPassword C dst = true)
    (hs : validPassword C src = true) : Transferred C dst src (import_ C dst src) ↔
      ∀ pub, exist src pub = true → ∃ prv, fetch C src pub = some prv ∧
        readValue C (walletKey C dst) (seed C dst) pub (moved C dst pub prv) = some prv := by
  have hnd : ((src.table.toList.map Prod.fst).filter validPublicKey).Nodup := by
    refine Nodup.filter _ (pairwise_map.mpr ?_)
    exact ExtTreeMap.ordered_keys_toList.imp fun h e => by simp [e] at h
  have hk : ∀ p ∈ (src.table.toList.map Prod.fst).filter validPublicKey,
      validPublicKey p = true := fun p hp => (mem_filter.mp hp).2
  rcases hout : import_ C dst src with ⟨error,dst',src'⟩
  cases error with
  | true =>
    refine iff_of_false (fun h => Bool.noConfusion h.1) fun h => ?_
    obtain ⟨p,hp,hn⟩ := transfer_stops _ hnd hk hs hout
    obtain ⟨prv,hf,-⟩ := h p (mem_accounts.mp hp)
    cases hn.symm.trans hf
  | false =>
    obtain ⟨hl,hin,hrest⟩ := transfer_spec (fun _ _ _ _ hp hf => import_insert hp hf) _ hnd hk hs
      hout
    have hread : ∀ pub, exist src pub = true → ∃ prv, fetch C src pub = some prv ∧
        exist dst' pub = true ∧ fetch C dst' pub =
          readValue C (walletKey C dst) (seed C dst) pub (moved C dst pub prv) := by
      intro pub hp
      obtain ⟨prv,hf,-,htab⟩ := hin pub (mem_accounts.mpr hp)
      rw [fetch_same hl hd,entryGetRaw,htab]
      exact ⟨prv,hf,exist_iff.mpr ⟨(exist_iff.mp hp).1,by simp [htab]⟩,rfl⟩
    constructor
    · rintro ⟨-,hall,-⟩ pub hp
      obtain ⟨prv,hf,-,hr⟩ := hread pub hp
      have hsame := (hall pub hp).2
      simp only [hf] at hsame
      exact ⟨prv,hf,hr ▸ hsame⟩
    · intro h
      have hkeys : ∀ pub, exist src pub = true → ∃ prv, fetch C src pub = some prv ∧
          exist dst' pub = true ∧ fetch C dst' pub = some prv := by
        intro pub hp
        obtain ⟨prv,hf,he,hr⟩ := hread pub hp
        obtain ⟨x,hx,hx'⟩ := h pub hp
        cases hf.symm.trans hx
        exact ⟨prv,hf,he,hr.trans hx'⟩
      refine ⟨rfl,fun pub hp => ?_,fun pub x hp hx => ?_,fun pub => ?_⟩
      · obtain ⟨prv,hf,he,hr⟩ := hkeys pub hp
        simp only [hf]
        exact ⟨he,hr⟩
      · by_cases hp' : exist src pub = true
        · obtain ⟨prv,hf,-,hr⟩ := hkeys pub hp'
          rw [hr,S.injective prv x ((fetch_pub hf).trans (fetch_pub hx).symm)]
        · rw [fetch_same hl hd,entryGetRaw,(hrest pub (mt mem_accounts.mp hp')).1]
          rwa [fetch,if_pos hd] at hx
      · by_contra hne
        obtain ⟨hv,hsome⟩ := exist_iff.mp (Bool.not_eq_false _ ▸ hne)
        by_cases hp' : exist src pub = true
        · obtain ⟨-,-,hnone,-⟩ := hin pub (mem_accounts.mpr hp')
          exact hsome hnone
        · rw [(hrest pub (mt mem_accounts.mp hp')).2] at hsome
          exact hp' (exist_iff.mpr ⟨hv,hsome⟩)

theorem import_transfers_sample :
    let src := insertAdhoc sampleCrypto (insertAdhoc sampleCrypto (sampleStart true) 50) 60
    let dst := insertAdhoc sampleCrypto (sampleStart false) 70
    Transferred sampleCrypto dst src (import_ sampleCrypto dst src) := by
  intro src dst
  have hall : (src.table.toList.map Prod.fst).filter validPublicKey = [150,160] := by
    decide +kernel
  refine (import_transfers sampleCrypto_sound (by decide +kernel) (by decide +kernel)).mpr
    fun pub hp => ?_
  rcases mem_pair.mp (hall ▸ mem_accounts.mpr hp) with rfl | rfl
  · exact ⟨50,by decide +kernel,by decide +kernel⟩
  · exact ⟨60,by decide +kernel,by decide +kernel⟩

/-- The watched account `100` keeps the account `150` after it from being
transferred. -/
theorem import_watched :
    let src := insertAdhoc sampleCrypto (insertWatch (sampleStart true) 100).2 50
    let out := import_ sampleCrypto (sampleStart false) src
    CryptoSound sampleCrypto ∧ validPassword sampleCrypto (sampleStart false) = true ∧
      validPassword sampleCrypto src = true ∧ fetch sampleCrypto src 150 = some 50 ∧
      out.1 = true ∧ exist out.2.1 150 = false ∧ exist out.2.2 150 = true := by
  refine ⟨sampleCrypto_sound,?_⟩
  decide +kernel

end Vxldollar.WalletImports
