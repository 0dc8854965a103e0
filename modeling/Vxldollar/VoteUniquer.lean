import Vxldollar.Library.Interning
import Vxldollar.Messages
import Vxldollar.Runs

/-!
# The vote uniquer

Votes off the network are interned before their signatures are checked, and so is
the block that a vote carries. The key of a vote is `full_hash`, which hashes
`sizeof (account.bytes.data ())` bytes of the account and of the signature: the size
of a pointer. Votes that differ in the other bytes only share a key.
-/

namespace Vxldollar.VoteUniquer
open Blocks Messages Wire Interning List

section
variable (K : Crypto) (C : Constants)

def hashBytes : Hashables → Bytes
  | .send h => [big h.previous,big h.destination,big h.balance].flatten
  | .receive h => [big h.previous,big h.source].flatten
  | .open_ h => [big h.source,big h.representative,big h.account].flatten
  | .change h => [big h.previous,big h.representative].flatten
  | .state h => [big (6 : BitVec 256),big h.account,big h.previous,big h.representative,
      big h.balance,big h.link].flatten

def blockFullBytes (b : Block) : Bytes :=
  [big (C.blockHash b),big b.signature,little b.work].flatten

def blockFullHash (b : Block) : BlockHash := K.blake2b (blockFullBytes C b)

abbrev plain (v : Vote) : Prop := v.blocks.length ≤ 1 ∧ (v.blocks.head?.all Sum.isLeft) = true

def voteBytes (v : Vote) : Bytes :=
  (if plain v then [] else votePrefix)++(v.blocks.flatMap fun e => big (entryHash C e))++
    little v.timestamp

def pointerSize : ℕ := 8

def voteFullBytes (v : Vote) : Bytes :=
  [big (v.hash K C),(big v.account).take pointerSize,(big v.signature).take pointerSize].flatten

def voteFullHash (v : Vote) : BlockHash := K.blake2b (voteFullBytes K C v)

structure State where
  blocks : Pool BlockHash Block := ∅
  votes : Pool BlockHash Vote := ∅

def front (v : Vote) : Option Block := v.blocks.head?.bind Sum.getLeft?

def setFront (v : Vote) (b : Block) : Vote := { v with blocks := .inl b::v.blocks.tail }

def unique (s : State) (v : Vote) (blockPicks picks : List BlockHash) : Vote × State :=
  if v.blocks = [] then (v,s)
  else
    let (v,s) := match front v with
      | some b =>
        let (b,blocks) := Interning.unique (blockFullHash K C) s.blocks b blockPicks
        (setFront v b,{ s with blocks := blocks })
      | none => (v,s)
    let (v,votes) := Interning.unique (voteFullHash K C) s.votes v picks
    (v,{ s with votes := votes })

/-- The states that calls with votes of `V` lead to. The block uniquer is called
with blocks of `B` by others, and whatever nobody holds any more expires. -/
inductive Reached (V : Set Vote) (B : Set Block) : State → Prop
  | start : Reached V B {}
  | unique {s : State} {v : Vote} : Reached V B s → v ∈ V → (blockPicks picks : List BlockHash) →
    Reached V B (unique K C s v blockPicks picks).2
  | block {s : State} {b : Block} : Reached V B s → b ∈ B → (picks : List BlockHash) →
    Reached V B { s with blocks := (Interning.unique (blockFullHash K C) s.blocks b picks).2 }
  | expireVote {s : State} (k : BlockHash) : Reached V B s →
    Reached V B { s with votes := expire s.votes k }
  | expireBlock {s : State} (k : BlockHash) : Reached V B s →
    Reached V B { s with blocks := expire s.blocks k }

def NeverSubstitutes (V : Set Vote) (B : Set Block) : Prop := ∀ s, Reached K C V B s → ∀ v ∈ V,
  ∀ blockPicks picks, (unique K C s v blockPicks picks).1 = v

end

section
variable (K : Crypto) (C : Constants) (V : Set Vote) (B : Set Block)

def seen : Set Block := {b | b ∈ B ∨ ∃ v ∈ V, front v = some b}

def hashed : Set Bytes := {x | (∃ v ∈ V, x = voteBytes C v ∨ x = voteFullBytes K C v) ∨
  ∃ b ∈ seen V B, x = hashBytes b.hashables ∨ x = blockFullBytes C b}

structure NoCollisions : Prop where
  hash : ∀ h, C.hash h = K.blake2b (hashBytes h)
  injective : Set.InjOn K.blake2b (hashed K C V B)

/-- A receive and a change block of one hash: they hash the same two fields. -/
def Twins : Hashables → Hashables → Prop
  | .receive r,.change c | .change c,.receive r =>
    r.previous = c.previous ∧ r.source = c.representative
  | _,_ => False

/-- Votes that the key does not tell apart: they agree in what `vote::hash` covers and
in the first bytes of account and signature. -/
structure SameKey (v w : Vote) : Prop where
  plain : plain v ↔ plain w
  hashes : v.blocks.map (entryHash C) = w.blocks.map (entryHash C)
  timestamp : v.timestamp = w.timestamp
  account : (big v.account).take pointerSize = (big w.account).take pointerSize
  signature : (big v.signature).take pointerSize = (big w.signature).take pointerSize

/-- No two votes share a key, and no block that a vote starts with has a twin with
its signature and work. -/
structure Separate : Prop where
  votes : ∀ v ∈ V, ∀ w ∈ V, v.blocks ≠ [] → SameKey C v w → v = w
  blocks : ∀ v ∈ V, ∀ b, front v = some b → ∀ c ∈ seen V B, b.signature = c.signature →
    b.work = c.work → ¬ Twins b.hashables c.hashables

end

section
variable {K : Crypto} {C : Constants} {V : Set Vote} {B : Set Block} {v w : Vote} {b c : Block}

theorem hashBytes_eq {a b : Hashables} : hashBytes a = hashBytes b ↔ a = b ∨ Twins a b := by
  have hkey : ∀ x y : BitVec 256, big x = big y ↔ x = y := fun x y =>
    (big_injective (by decide)).eq_iff
  have hbalance : ∀ x y : BitVec 128, big x = big y ↔ x = y := fun x y =>
    (big_injective (by decide)).eq_iff
  constructor
  · intro h
    have hlen := congrArg length h
    -- only receive and change blocks hash equally many bytes
    rcases a with ⟨_,_,_⟩ | ⟨_,_⟩ | ⟨_,_,_⟩ | ⟨_,_⟩ | ⟨_,_,_,_,_⟩ <;>
      rcases b with ⟨_,_,_⟩ | ⟨_,_⟩ | ⟨_,_,_⟩ | ⟨_,_⟩ | ⟨_,_,_,_,_⟩ <;>
      simp [hashBytes,big_length] at hlen <;>
      simp [hashBytes,big_append,hkey,hbalance] at h <;> simp [Twins,h]
  · rintro (rfl | h)
    · rfl
    · cases a <;> cases b <;> simp_all [Twins,hashBytes]

theorem voteBytes_length : (voteBytes C v).length =
    (if plain v then 0 else 5)+32*v.blocks.length+8 := by
  have hsum : ∀ l : List (Block ⊕ BlockHash),
      (l.flatMap fun e => big (entryHash C e)).length = 32*l.length := by
    intro l
    induction l with
    | nil => rfl
    | cons e l ih =>
      rw [flatMap_cons,length_append,ih,big_length,length_cons]
      omega
  rw [voteBytes,length_append,length_append,hsum,little_length]
  split <;> rfl

theorem flatMap_hashes (l : List (Block ⊕ BlockHash)) :
    (l.flatMap fun e => big (entryHash C e)) = (l.map (entryHash C)).flatMap big := by
  rw [flatMap_map]

theorem voteBytes_eq : voteBytes C v = voteBytes C w ↔
    (plain v ↔ plain w) ∧ v.blocks.map (entryHash C) = w.blocks.map (entryHash C) ∧
    v.timestamp = w.timestamp := by
  constructor
  · intro h
    have hlen := congrArg length h
    rw [voteBytes_length,voteBytes_length] at hlen
    have hplain : plain v ↔ plain w := by
      by_cases hv : plain v <;> by_cases hw : plain w
      · exact iff_of_true hv hw
      · rw [if_pos hv,if_neg hw] at hlen
        omega
      · rw [if_neg hv,if_pos hw] at hlen
        omega
      · exact iff_of_false hv hw
    rw [voteBytes,voteBytes,if_congr hplain rfl rfl,flatMap_hashes,flatMap_hashes] at h
    have htail := append_inj' h (by rw [little_length,little_length])
    have hhead := append_cancel_left htail.1
    exact ⟨hplain,bigs_injective (by decide) (by decide) hhead,
      little_injective (by decide) htail.2⟩
  · rintro ⟨hplain,hhashes,htime⟩
    rw [voteBytes,voteBytes,if_congr hplain rfl rfl,flatMap_hashes,flatMap_hashes,hhashes,htime]

theorem hash_eq (v : Vote) : v.hash K C = K.blake2b (voteBytes C v) := rfl

theorem voteFullBytes_eq : voteFullBytes K C v = voteFullBytes K C w ↔
    v.hash K C = w.hash K C ∧
    (big v.account).take pointerSize = (big w.account).take pointerSize ∧
    (big v.signature).take pointerSize = (big w.signature).take pointerSize := by
  simp only [voteFullBytes,flatten_cons]
  rw [big_append (by decide)]
  constructor
  · rintro ⟨hhash,h⟩
    have := append_inj h (by simp [big_length])
    exact ⟨hhash,this⟩
  · rintro ⟨hhash,haccount,hsignature⟩
    exact ⟨hhash,by rw [haccount,hsignature]⟩

theorem SameKey.key (h : SameKey C v w) : voteFullHash K C v = voteFullHash K C w := by
  have hbytes := voteBytes_eq.mpr ⟨h.plain,h.hashes,h.timestamp⟩
  have hhash : v.hash K C = w.hash K C := by rw [hash_eq,hash_eq,hbytes]
  rw [voteFullHash,voteFullHash,voteFullBytes_eq.mpr ⟨hhash,h.account,h.signature⟩]

theorem NoCollisions.sameKey (N : NoCollisions K C V B) (hv : v ∈ V) (hw : w ∈ V)
    (h : voteFullHash K C v = voteFullHash K C w) : SameKey C v w := by
  have hfull := N.injective (.inl ⟨v,hv,.inr rfl⟩) (.inl ⟨w,hw,.inr rfl⟩) h
  obtain ⟨hhash,haccount,hsignature⟩ := voteFullBytes_eq.mp hfull
  have hbytes := N.injective (.inl ⟨v,hv,.inl rfl⟩) (.inl ⟨w,hw,.inl rfl⟩) hhash
  obtain ⟨hplain,hhashes,htime⟩ := voteBytes_eq.mp hbytes
  exact ⟨hplain,hhashes,htime,haccount,hsignature⟩

theorem blockFullBytes_eq : blockFullBytes C b = blockFullBytes C c ↔
    C.blockHash b = C.blockHash c ∧ b.signature = c.signature ∧ b.work = c.work := by
  simp only [blockFullBytes,flatten_cons,flatten_nil,append_nil]
  rw [big_append (by decide),big_append (by decide),(little_injective (by decide)).eq_iff]

theorem NoCollisions.block (N : NoCollisions K C V B) (hb : b ∈ seen V B) (hc : c ∈ seen V B) :
    blockFullHash K C b = blockFullHash K C c ↔
      (b.hashables = c.hashables ∨ Twins b.hashables c.hashables) ∧
      b.signature = c.signature ∧ b.work = c.work := by
  have hhash : C.blockHash b = C.blockHash c ↔
      b.hashables = c.hashables ∨ Twins b.hashables c.hashables := by
    rw [← hashBytes_eq,Constants.blockHash,Constants.blockHash,N.hash,N.hash]
    exact N.injective.eq_iff (.inr ⟨b,hb,.inl rfl⟩) (.inr ⟨c,hc,.inl rfl⟩)
  rw [← hhash,← blockFullBytes_eq,blockFullHash,blockFullHash]
  exact N.injective.eq_iff (.inr ⟨b,hb,.inr rfl⟩) (.inr ⟨c,hc,.inr rfl⟩)

end

section
variable {K : Crypto} {C : Constants} {V : Set Vote} {B : Set Block} {s : State} {v w : Vote}
  {b c : Block}

theorem setFront_front (h : front v = some b) : setFront v b = v := by
  obtain ⟨timestamp,blocks,account,signature⟩ := v
  cases blocks with
  | nil => cases h
  | cons e rest =>
    cases e with
    | inl d =>
      cases h
      rfl
    | inr hash => cases h

def prepared (K : Crypto) (C : Constants) (s : State) (v : Vote) : Vote := match front v with
  | some b => setFront v ((lock s.blocks (blockFullHash K C b)).getD b)
  | none => v

theorem unique_result (hv : v.blocks ≠ []) (blockPicks picks : List BlockHash) :
    (unique K C s v blockPicks picks).1 =
      (lock s.votes (voteFullHash K C (prepared K C s v))).getD (prepared K C s v) := by
  simp only [unique,if_neg hv,prepared]
  cases front v with
  | none => rw [unique_fst]
  | some b =>
    dsimp only
    rw [unique_fst,unique_fst]

theorem unique_votes (hv : v.blocks ≠ []) (blockPicks picks : List BlockHash) :
    (unique K C s v blockPicks picks).2.votes =
      (Interning.unique (voteFullHash K C) s.votes (prepared K C s v) picks).2 := by
  simp only [unique,if_neg hv,prepared]
  cases front v with
  | none => rfl
  | some b =>
    dsimp only
    rw [unique_fst]

theorem unique_blocks (hb : front v = some b) (blockPicks picks : List BlockHash) :
    (unique K C s v blockPicks picks).2.blocks =
      (Interning.unique (blockFullHash K C) s.blocks b blockPicks).2 := by
  have hv : v.blocks ≠ [] := by
    intro h
    simp [front,h] at hb
  simp [unique,if_neg hv,hb]

theorem unique_blocks_none (hb : front v = none) (blockPicks picks : List BlockHash) :
    (unique K C s v blockPicks picks).2.blocks = s.blocks := by
  simp only [unique,hb]
  split <;> rfl

structure Inv (K : Crypto) (C : Constants) (V : Set Vote) (B : Set Block) (s : State) : Prop where
  blocks : Sound (blockFullHash K C) (seen V B) s.blocks
  votes : Sound (voteFullHash K C) V s.votes

section
variable (I : Inv K C V B s) (N : NoCollisions K C V B) (D : Separate C V B) (hv : v ∈ V)
include I N D hv

theorem Inv.prepared : prepared K C s v = v := by
  simp only [VoteUniquer.prepared]
  split
  · rename_i b hb
    have hseen : b ∈ seen V B := .inr ⟨v,hv,hb⟩
    have hsame : (lock s.blocks (blockFullHash K C b)).getD b = b := by
      obtain ⟨hmem,hkey⟩ := I.blocks.result hseen []
      rw [unique_fst] at hmem hkey
      obtain ⟨hh | hh,hs,hw⟩ := (N.block hseen hmem).mp hkey.symm
      · exact (Block.mk.injEq ..).mpr ⟨hh.symm,hs.symm,hw.symm⟩
      · exact absurd hh (D.blocks v hv b hb _ hmem hs hw)
    rw [hsame,setFront_front hb]
  · rfl

theorem Inv.result (blockPicks picks : List BlockHash) :
    (unique K C s v blockPicks picks).1 = v := by
  by_cases hnil : v.blocks = []
  · simp [unique,if_pos hnil]
  · rw [unique_result hnil,I.prepared N D hv]
    obtain ⟨hmem,hkey⟩ := I.votes.result hv []
    rw [unique_fst] at hmem hkey
    exact (D.votes v hv _ hmem hnil (N.sameKey hv hmem hkey.symm)).symm

theorem Inv.unique (blockPicks picks : List BlockHash) :
    Inv K C V B (unique K C s v blockPicks picks).2 := by
  constructor
  · cases hb : front v with
    | none =>
      rw [unique_blocks_none hb]
      exact I.blocks
    | some b =>
      rw [unique_blocks hb]
      exact I.blocks.unique (.inr ⟨v,hv,hb⟩) _
  · by_cases hnil : v.blocks = []
    · simp only [VoteUniquer.unique,if_pos hnil]
      exact I.votes
    · rw [unique_votes hnil,I.prepared N D hv]
      exact I.votes.unique hv _

end

theorem reached_inv (N : NoCollisions K C V B) (D : Separate C V B) (h : Reached K C V B s) :
    Inv K C V B s := by
  induction h with
  | start => exact ⟨sound_empty,sound_empty⟩
  | unique h hv blockPicks picks ih => exact ih.unique N D hv blockPicks picks
  | block h hb picks ih => exact ⟨ih.blocks.unique (.inl hb) _,ih.votes⟩
  | expireVote k h ih => exact ⟨ih.blocks,ih.votes.expire k⟩
  | expireBlock k h ih => exact ⟨ih.blocks.expire k,ih.votes⟩

theorem prepared_start (v : Vote) : prepared K C {} v = v := by
  simp only [prepared]
  split
  · exact setFront_front ‹_›
  · rfl

theorem lock_first (hv : v.blocks ≠ []) (k : BlockHash) :
    lock (unique K C {} v [] []).2.votes k =
      if k = voteFullHash K C v then some v else none := by
  rw [unique_votes hv,lock_unique,unique_fst,prepared_start]
  simp [lock]

theorem NeverSubstitutes.votes (H : NeverSubstitutes K C V B) (hv : v ∈ V) (hw : w ∈ V)
    (hnil : v.blocks ≠ []) (h : SameKey C v w) : v = w := by
  have hnil' : w.blocks ≠ [] := by
    intro hn
    have := h.hashes
    rw [hn,map_nil,map_eq_nil_iff] at this
    exact hnil this
  have hres := H _ (Reached.unique Reached.start hv [] []) w hw [] []
  rw [unique_result hnil',lock_first hnil] at hres
  by_cases hk : voteFullHash K C (prepared K C (unique K C {} v [] []).2 w) = voteFullHash K C v
  · rw [if_pos hk] at hres
    exact hres
  · rw [if_neg hk] at hres
    simp only [Option.getD_none] at hres
    rw [hres] at hk
    exact absurd h.key.symm hk

theorem result_front (hb : front v = some b) (hl : lock s.blocks (blockFullHash K C b) = some c)
    (hvotes : ∀ k w, lock s.votes k = some w → front w = some c) :
    front (unique K C s v [] []).1 = some c := by
  have hv : v.blocks ≠ [] := by
    intro h
    simp [front,h] at hb
  rw [unique_result hv]
  have hp : front (prepared K C s v) = some c := by
    simp only [prepared,hb,hl]
    rfl
  cases hlock : lock s.votes (voteFullHash K C (prepared K C s v)) with
  | none => exact hp
  | some w => exact hvotes _ w hlock

theorem twins_ne {a b : Hashables} (h : Twins a b) : a ≠ b := by
  rintro rfl
  cases a <;> exact h

theorem NeverSubstitutes.blocks (N : NoCollisions K C V B) (H : NeverSubstitutes K C V B)
    (hv : v ∈ V) (hb : front v = some b) (hc : c ∈ seen V B) (hs : b.signature = c.signature)
    (hw : b.work = c.work) : ¬ Twins b.hashables c.hashables := by
  intro ht
  have hkey := (N.block (.inr ⟨v,hv,hb⟩) hc).mpr ⟨.inr ht,hs,hw⟩
  have hne : some b ≠ some c := fun h => twins_ne ht (congrArg Block.hashables (Option.some.inj h))
  rcases hc with hc | ⟨w,hw,hc⟩
  · have hres := H _ (Reached.block Reached.start hc []) v hv [] []
    have hfront := @result_front K C { blocks := (Interning.unique (blockFullHash K C) ∅ c []).2 }
      v b c hb (by rw [lock_unique,hkey,if_pos rfl,unique_fst]; simp [lock]) (by simp [lock])
    rw [hres,hb] at hfront
    exact hne hfront
  · have hnil : w.blocks ≠ [] := by
      intro h
      simp [front,h] at hc
    have hres := H _ (Reached.unique Reached.start hw [] []) v hv [] []
    have hfront := @result_front K C (unique K C {} w [] []).2 v b c hb
      (by rw [unique_blocks hc,lock_unique,hkey,if_pos rfl,unique_fst]; simp [lock])
      (by
        intro k u hu
        rw [lock_first hnil] at hu
        split at hu
        · rw [← Option.some.inj hu,hc]
        · cases hu)
    rw [hres,hb] at hfront
    exact hne hfront

end

/-- The vote uniquer returns votes equal to its arguments, whatever the calls and the
lifetimes, if and only if no two of the votes share a key and no block that a vote
starts with has a twin. -/
theorem never_substitutes_iff (K : Crypto) (C : Constants) (V : Set Vote) (B : Set Block)
    (N : NoCollisions K C V B) : NeverSubstitutes K C V B ↔ Separate C V B := by
  constructor
  · intro H
    exact ⟨fun v hv w hw hnil h => H.votes hv hw hnil h,
      fun v hv b hb c hc hs hw => H.blocks N hv hb hc hs hw⟩
  · intro D s hr v hv blockPicks picks
    exact (reached_inv N D hr).result N D hv blockPicks picks

def sampleCrypto : Crypto where
  blake2b s := BitVec.ofNat 256 (ofLittle s % (2^255-19))
  validateMessage _ _ signature := decide (signature ≠ 2^500)

def sampleConstants : Constants :=
  { Runs.sample with hash := fun h => sampleCrypto.blake2b (hashBytes h) }

def sampleVote (signature : Signature) : Vote := ⟨16,[.inr 3],7,signature⟩

theorem sampleVote_bytes (x y : Signature) :
    voteBytes sampleConstants (sampleVote x) = voteBytes sampleConstants (sampleVote y) :=
  voteBytes_eq.mpr ⟨Iff.rfl,rfl,rfl⟩

def sampleHashed (signatures : List Signature) : List Bytes :=
  voteBytes sampleConstants (sampleVote 0) ::
    signatures.map fun x => voteFullBytes sampleCrypto sampleConstants (sampleVote x)

theorem sample_noCollisions {signatures : List Signature}
    (h : ∀ x ∈ sampleHashed signatures, ∀ y ∈ sampleHashed signatures,
      sampleCrypto.blake2b x = sampleCrypto.blake2b y → x = y) :
    NoCollisions sampleCrypto sampleConstants (sampleVote '' {x | x ∈ signatures}) ∅ where
  hash _ := rfl
  injective := by
    have hmem : ∀ x ∈ hashed sampleCrypto sampleConstants (sampleVote '' {x | x ∈ signatures}) ∅,
        x ∈ sampleHashed signatures := by
      rintro x (⟨v,⟨y,hy,rfl⟩,rfl | rfl⟩ | ⟨b,hb | ⟨v,⟨y,-,rfl⟩,hb⟩,-⟩)
      · exact sampleVote_bytes 0 y ▸ mem_cons_self
      · exact mem_cons_of_mem _ (mem_map.mpr ⟨y,hy,rfl⟩)
      · cases hb
      · cases hb
    exact fun x hx y hy => h x (hmem x hx) y (hmem y hy)

theorem never_substitutes_iff_sample : NeverSubstitutes sampleCrypto sampleConstants
    (sampleVote '' {x | x ∈ [(2^500 : Signature),2^504]}) ∅ := by
  refine (never_substitutes_iff sampleCrypto sampleConstants _ ∅
    (sample_noCollisions (by decide +kernel))).mpr ⟨?_,?_⟩
  · rintro v ⟨x,hx,rfl⟩ w ⟨y,hy,rfl⟩ - h
    have hsig : (big x).take pointerSize = (big y).take pointerSize := h.signature
    rcases mem_pair.mp hx with rfl | rfl <;> rcases mem_pair.mp hy with rfl | rfl
    · rfl
    · exact absurd hsig (by decide +kernel)
    · exact absurd hsig (by decide +kernel)
    · rfl
  · rintro v ⟨x,-,rfl⟩ b hb
    cases hb

/-- A forged vote comes first. Its signature agrees with the good one in its first bytes
and does not validate; the good vote is replaced by the forged one. -/
theorem uniquer_substitutes : ∃ K C V s v, NoCollisions K C V ∅ ∧ Reached K C V ∅ s ∧ v ∈ V ∧
    v.validate K C = false ∧ (unique K C s v [] []).1.validate K C = true ∧
    (unique K C s v [] []).1 ≠ v := by
  let forged := sampleVote (2^500+1)
  let good := sampleVote (2^500)
  have hn : NoCollisions sampleCrypto sampleConstants
      (sampleVote '' {x | x ∈ [2^500,2^500+1]}) ∅ := sample_noCollisions (by decide +kernel)
  have hkey : voteFullHash sampleCrypto sampleConstants good =
      voteFullHash sampleCrypto sampleConstants forged := by
    decide +kernel
  have hres : (unique sampleCrypto sampleConstants
      (unique sampleCrypto sampleConstants {} forged [] []).2 good [] []).1 = forged := by
    rw [unique_result (cons_ne_nil _ _),lock_first (cons_ne_nil _ _)]
    exact congrArg (Option.getD · good) (if_pos hkey)
  have hforged : forged ∈ sampleVote '' {x | x ∈ [2^500,2^500+1]} := ⟨2^500+1,by simp,rfl⟩
  refine ⟨_,_,_,_,good,hn,Reached.unique Reached.start hforged [] [],⟨2^500,by simp,rfl⟩,?_,?_,?_⟩
  · decide +kernel
  · rw [hres]
    decide +kernel
  · rw [hres]
    decide +kernel

end Vxldollar.VoteUniquer
