import Vxldollar.Blocks
import Vxldollar.Library.Table

/-!
# Wallet stores

One table holds the parameters of a wallet under seven special keys and one entry
for each account, which is read as a watched account, an index into the
deterministic keys or an encrypted private key, according to its size. The two
secrets kept in memory are spread over several words in the source and are single
values here. Ciphers, key derivation and public keys are left open.
-/

namespace Vxldollar.Wallets
open Std Blocks

abbrev RawKey := BitVec 256
abbrev Iv := BitVec 128

structure Crypto where
  encrypt : RawKey → RawKey → Iv → RawKey
  decrypt : RawKey → RawKey → Iv → RawKey
  pubKey : RawKey → Account
  deterministicKey : RawKey → BitVec 32 → RawKey
  phs : String → RawKey → RawKey

structure WalletValue where
  key : RawKey
  work : BitVec 64
  deriving DecidableEq, Repr

inductive KeyType where
  | unknown
  | adhoc
  | deterministic
  deriving DecidableEq, Repr

structure Wallet where
  table : ExtTreeMap Account WalletValue := ∅
  password : RawKey := 0
  walletKeyMem : RawKey := 0

def versionSpecial : Account := 0
def saltSpecial : Account := 1
def walletKeySpecial : Account := 2
def checkSpecial : Account := 3
def representativeSpecial : Account := 4
def seedSpecial : Account := 5
def deterministicIndexSpecial : Account := 6
def specialCount : Account := 7
def versionCurrent : RawKey := 4

def oword0 (x : RawKey) : Iv := x.extractLsb' 128 128
def oword1 (x : RawKey) : Iv := x.extractLsb' 0 128

def entryGetRaw (s : Wallet) (pub : Account) : WalletValue := s.table[pub]?.getD ⟨0,0⟩

def entryPutRaw (s : Wallet) (pub : Account) (v : WalletValue) : Wallet :=
  { s with table := s.table.insert pub v }

def erase (s : Wallet) (pub : Account) : Wallet := { s with table := s.table.erase pub }

def salt (s : Wallet) : RawKey := (entryGetRaw s saltSpecial).key

def check (s : Wallet) : RawKey := (entryGetRaw s checkSpecial).key

def validPublicKey (pub : Account) : Bool := decide (specialCount ≤ pub)

def exist (s : Wallet) (pub : Account) : Bool := validPublicKey pub && s.table.contains pub

def keyType (v : WalletValue) : KeyType :=
  if v.key.toNat > 2^64-1 then .adhoc
  else if v.key.toNat/2^32 = 1 then .deterministic
  else .unknown

def marker (index : BitVec 32) : RawKey := BitVec.ofNat 256 (2^32+index.toNat)

def markerIndex (key : RawKey) : BitVec 32 := key.extractLsb' 0 32

variable (C : Crypto)

def walletKey (s : Wallet) : RawKey := C.decrypt s.walletKeyMem s.password (oword0 (salt s))

def seed (s : Wallet) : RawKey :=
  C.decrypt (entryGetRaw s seedSpecial).key (walletKey C s) (oword1 (salt s))

def validPassword (s : Wallet) : Bool :=
  decide (check s = C.encrypt 0 (walletKey C s) (oword0 (salt s)))

def deterministicKey (s : Wallet) (index : BitVec 32) : RawKey :=
  C.deterministicKey (seed C s) index

/-- The private key that an entry stands for, under a wallet key and a seed. It has
to fit the account. -/
def readValue (wallet seed : RawKey) (pub : Account) (v : WalletValue) : Option RawKey :=
  let prv := if v.key = 0 then none
    else match keyType v with
      | .deterministic => some (C.deterministicKey seed (markerIndex v.key))
      | .adhoc => some (C.decrypt v.key wallet (oword0 pub))
      | .unknown => none
  prv.filter (fun prv => C.pubKey prv = pub)

def fetch (s : Wallet) (pub : Account) : Option RawKey :=
  if validPassword C s then readValue C (walletKey C s) (seed C s) pub (entryGetRaw s pub)
  else none

def insertAdhoc (s : Wallet) (prv : RawKey) : Wallet :=
  let pub := C.pubKey prv
  entryPutRaw s pub ⟨C.encrypt prv (walletKey C s) (oword0 pub),0⟩

def insertWatch (s : Wallet) (pub : Account) : Bool × Wallet :=
  if validPublicKey pub then (false,entryPutRaw s pub ⟨0,0⟩) else (true,s)

def deterministicIndexGet (s : Wallet) : BitVec 32 :=
  markerIndex (entryGetRaw s deterministicIndexSpecial).key

def deterministicIndexSet (s : Wallet) (index : BitVec 32) : Wallet :=
  entryPutRaw s deterministicIndexSpecial ⟨index.setWidth 256,0⟩

def deterministicInsertAt (s : Wallet) (index : BitVec 32) : Wallet :=
  entryPutRaw s (C.pubKey (deterministicKey C s index)) ⟨marker index,0⟩

def freeIndex (s : Wallet) : ℕ → BitVec 32 → Option (BitVec 32)
  | 0,_ => none
  | fuel+1,index =>
    if exist s (C.pubKey (deterministicKey C s index)) then freeIndex s fuel (index+1)
    else some index

def deterministicInsert (fuel : ℕ) (s : Wallet) : Option Wallet := do
  let index ← freeIndex C s fuel (deterministicIndexGet s)
  return deterministicIndexSet (deterministicInsertAt C s index) (index+1)

def attemptPassword (s : Wallet) (password : String) : Bool × Wallet :=
  let s := { s with password := C.phs password (salt s) }
  (!validPassword C s,s)

def rekey (s : Wallet) (password : String) : Bool × Wallet :=
  if validPassword C s then
    let passwordNew := C.phs password (salt s)
    let encrypted := C.encrypt (walletKey C s) passwordNew (oword0 (salt s))
    (false,entryPutRaw { s with password := passwordNew, walletKeyMem := encrypted }
      walletKeySpecial ⟨encrypted,0⟩)
  else (true,s)

def workPut (s : Wallet) (pub : Account) (work : BitVec 64) : Wallet :=
  entryPutRaw s pub { entryGetRaw s pub with work := work }

def representativeSet (s : Wallet) (representative : Account) : Wallet :=
  entryPutRaw s representativeSpecial ⟨representative,0⟩

/-- The loop of `move` and `import`. The first key that cannot be fetched ends it,
since the error stays set. -/
def transfer (insert : Wallet → Account → RawKey → Wallet) :
    Wallet → Wallet → List Account → Bool × Wallet × Wallet
  | dst,src,[] => (false,dst,src)
  | dst,src,pub::keys => match fetch C src pub with
    | none => (true,dst,src)
    | some prv => transfer insert (insert dst pub prv) (erase src pub) keys

def move (dst src : Wallet) (keys : List Account) : Bool × Wallet × Wallet :=
  transfer C (fun dst _ prv => insertAdhoc C dst prv) dst src keys

/-- The iterator starts after the special keys. -/
def import_ (dst src : Wallet) : Bool × Wallet × Wallet :=
  transfer C (fun dst pub prv => if prv ≠ 0 then insertAdhoc C dst prv else (insertWatch dst pub).2)
    dst src (src.table.toList.map Prod.fst |>.filter validPublicKey)

structure Entropy where
  salt : RawKey
  walletKey : RawKey
  seed : RawKey

def create (r : Entropy) (representative : Account) : Wallet :=
  let encrypted := C.encrypt r.walletKey 0 (oword0 r.salt)
  { walletKeyMem := encrypted
    table := (∅ : ExtTreeMap Account WalletValue).insert versionSpecial ⟨versionCurrent,0⟩
      |>.insert saltSpecial ⟨r.salt,0⟩
      |>.insert walletKeySpecial ⟨encrypted,0⟩
      |>.insert checkSpecial ⟨C.encrypt 0 r.walletKey (oword0 r.salt),0⟩
      |>.insert representativeSpecial ⟨representative,0⟩
      |>.insert seedSpecial ⟨C.encrypt r.seed r.walletKey (oword1 r.salt),0⟩
      |>.insert deterministicIndexSpecial ⟨0,0⟩ }

/-- Operations on two wallets; `w` is the wallet operated on, for a transfer the one
that receives. -/
inductive Op where
  | insertAdhoc (w : Bool) (prv : RawKey)
  | deterministicInsert (w : Bool) (fuel : ℕ)
  | deterministicInsertAt (w : Bool) (index : BitVec 32)
  | insertWatch (w : Bool) (pub : Account)
  | rekey (w : Bool) (password : String)
  | attemptPassword (w : Bool) (password : String)
  | workPut (w : Bool) (pub : Account) (work : BitVec 64)
  | representativeSet (w : Bool) (representative : Account)
  | move (w : Bool) (keys : List Account)
  | import_ (w : Bool)

abbrev State := Bool → Wallet

def transferred (w : Bool) (out : Bool × Wallet × Wallet) : State :=
  fun v => if v = w then out.2.1 else out.2.2

def step (s : State) : Op → Option State
  | .insertAdhoc w prv => some (Function.update s w (insertAdhoc C (s w) prv))
  | .deterministicInsert w fuel =>
    (deterministicInsert C fuel (s w)).map (fun t => Function.update s w t)
  | .deterministicInsertAt w index =>
    some (Function.update s w (deterministicInsertAt C (s w) index))
  | .insertWatch w pub => some (Function.update s w (insertWatch (s w) pub).2)
  | .rekey w password => some (Function.update s w (rekey C (s w) password).2)
  | .attemptPassword w password => some (Function.update s w (attemptPassword C (s w) password).2)
  | .workPut w pub work => some (Function.update s w (workPut (s w) pub work))
  | .representativeSet w representative =>
    some (Function.update s w (representativeSet (s w) representative))
  | .move w keys => some (transferred w (move C (s w) (s !w) keys))
  | .import_ w => some (transferred w (import_ C (s w) (s !w)))

end Vxldollar.Wallets
