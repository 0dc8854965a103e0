import Mathlib.Data.BitVec
import Mathlib.Data.Vector.Basic

/-!
# Byte streams

Readers take bytes off the front of a stream or fail. Two rules carry the proofs
about them: what a reader makes of bytes that were written for it, whatever
follows, and how many bytes a successful read has taken. Both follow the
structure of a reader.
-/

namespace Wire
open List Option Nat

abbrev Byte := BitVec 8
abbrev Bytes := List Byte
abbrev Reader := StateT Bytes Option

variable {α β : Type}

def take (n : ℕ) : Reader Bytes := fun s =>
  if n ≤ s.length then some (s.take n,s.drop n) else none

def readVector (r : Reader α) : (n : ℕ) → Reader (List.Vector α n)
  | 0 => pure .nil
  | n+1 => do
    let a ← r
    let v ← readVector r n
    pure (.cons a v)

def readCount (r : Reader α) (n : ℕ) : Reader (List α) := do
  let v ← readVector r n
  pure v.toList

def readOptional (present : Bool) (r : Reader α) : Reader (Option α) :=
  if present then do
    let a ← r
    pure (some a)
  else pure none

/-- Reads while bytes are left. Each round takes a byte at least, so the number of
bytes bounds the rounds. -/
def readRounds (r : Reader α) : ℕ → Bytes → Option (List α × Bytes)
  | 0, s => if s = [] then some ([],s) else none
  | n+1, s => if s = [] then some ([],s) else
    (r s).bind fun x => (readRounds r n x.2).map fun y => (x.1::y.1,y.2)

def readAll (r : Reader α) : Reader (List α) := fun s => readRounds r s.length s
section
variable {w : ℕ}

def little (x : BitVec w) : Bytes := (range (w/8)).map fun i => x.extractLsb' (8*i) 8

def big (x : BitVec w) : Bytes := (little x).reverse

def ofLittle : Bytes → ℕ
  | [] => 0
  | b::s => b.toNat+256*ofLittle s

def readLittle (w : ℕ) : Reader (BitVec w) := do
  let s ← take (w/8)
  pure (BitVec.ofNat w (ofLittle s))

def readBig (w : ℕ) : Reader (BitVec w) := do
  let s ← take (w/8)
  pure (BitVec.ofNat w (ofLittle s.reverse))

theorem little_length (x : BitVec w) : (little x).length = w/8 := by
  rw [little,length_map,length_range]

theorem big_length (x : BitVec w) : (big x).length = w/8 := by
  rw [big,length_reverse,little_length]

theorem ofLittle_range (x n : ℕ) : ofLittle ((range n).map fun i =>
    BitVec.ofNat 8 (x >>> (8*i))) = x % 2^(8*n) := by
  induction n generalizing x with
  | zero => simp [ofLittle,mod_one]
  | succ n ih =>
    have hshift : ∀ i, x >>> (8*(i+1)) = (x >>> 8) >>> (8*i) := fun i => by
      rw [← shiftRight_add,mul_add,add_comm (8*i)]
    rw [range_succ_eq_map,map_cons,List.map_map,ofLittle]
    have htail : ((fun i => BitVec.ofNat 8 (x >>> (8*i))) ∘ succ) =
        fun i => BitVec.ofNat 8 ((x >>> 8) >>> (8*i)) := by
      ext1 i
      exact congrArg (BitVec.ofNat 8) (hshift i)
    rw [htail,ih,BitVec.toNat_ofNat,shiftRight_eq_div_pow,shiftRight_eq_div_pow]
    have hpow : (2 : ℕ)^(8*(n+1)) = 2^8*2^(8*n) := by
      rw [← pow_add,mul_add,add_comm]
    rw [hpow,mod_mul]
    simp

variable (h : 8 ∣ w)
include h

theorem ofLittle_little (x : BitVec w) : ofLittle (little x) = x.toNat := by
  have hbytes : little x = (List.range (w/8)).map fun i => BitVec.ofNat 8 (x.toNat >>> (8*i)) := by
    rw [little]
    rfl
  rw [hbytes,ofLittle_range,Nat.mul_div_cancel' h,mod_eq_of_lt x.isLt]

theorem little_injective : Function.Injective (little : BitVec w → Bytes) := by
  intro x y hxy
  apply BitVec.eq_of_toNat_eq
  rw [← ofLittle_little h x,hxy,ofLittle_little h]

theorem big_injective : Function.Injective (big : BitVec w → Bytes) :=
  reverse_injective.comp (little_injective h)

theorem big_append {x y : BitVec w} {s t : Bytes} :
    big x++s = big y++t ↔ x = y ∧ s = t := by
  constructor
  · intro hxy
    have := append_inj hxy (by rw [big_length,big_length])
    exact ⟨big_injective h this.1,this.2⟩
  · rintro ⟨rfl,rfl⟩
    rfl

theorem bigs_injective (hw : 0 < w) :
    Function.Injective fun l : List (BitVec w) => l.flatMap big := by
  have hpos : 0 < w/8 := div_pos (le_of_dvd hw h) (by decide)
  intro l m hlm
  induction l generalizing m with
  | nil =>
    cases m with
    | nil => rfl
    | cons y m =>
      have := congrArg length hlm
      simp [big_length] at this
      omega
  | cons x l ih =>
    cases m with
    | nil =>
      have := congrArg length hlm
      simp [big_length] at this
      omega
    | cons y m =>
      simp only [flatMap_cons] at hlm
      have hxy := append_inj hlm (by rw [big_length,big_length])
      rw [big_injective h hxy.1,ih hxy.2]

end
section
variable {r : Reader α} {a : α} {f : α → Reader β} {s t rest : Bytes} {w n : ℕ} {b : β}
  {x : BitVec w}

theorem bind_of_eq (h : r s = some (a,t)) (f : α → Reader β) : (r >>= f) s = f a t := by
  show (r s).bind (fun x => f x.1 x.2) = _
  rw [h,bind_some]

/-- The reader returns `a` when `s` comes first, and leaves the rest. -/
def Parses (r : Reader α) (s : Bytes) (a : α) : Prop := ∀ rest, r (s++rest) = some (a,rest)

theorem Parses.pure (a : α) : Parses (Pure.pure a) [] a := fun _ => rfl

section
variable (hr : Parses r s a)
include hr

theorem Parses.bind_eq (hf : f a t = some (b,rest)) :
    (r >>= f) (s++t) = some (b,rest) := by
  rw [bind_of_eq (hr t)]
  exact hf

theorem Parses.bind (hf : Parses (f a) t b) :
    Parses (r >>= f) (s++t) b := by
  intro rest
  rw [append_assoc]
  exact hr.bind_eq (hf rest)

theorem Parses.map (f : α → β) :
    Parses (do let x ← r; Pure.pure (f x)) s (f a) := by
  have h := hr.bind (f := fun x => Pure.pure (f x)) (Parses.pure (f a))
  rw [append_nil] at h
  exact h

theorem Parses.eq : r s = some (a,[]) := by
  have h := hr []
  rwa [append_nil] at h

end

theorem parses_take (h : s.length = n) : Parses (take n) s s := by
  intro rest
  rw [take,if_pos (by rw [length_append]; omega),take_left' h,drop_left' h]

theorem parses_little (h : 8 ∣ w) (x : BitVec w) : Parses (readLittle w) (little x) x := by
  have hp := (parses_take (little_length x)).map fun s => BitVec.ofNat w (ofLittle s)
  rw [ofLittle_little h,BitVec.ofNat_toNat,BitVec.setWidth_eq] at hp
  exact hp

theorem parses_big (h : 8 ∣ w) (x : BitVec w) : Parses (readBig w) (big x) x := by
  have hp := (parses_take (big_length x)).map fun s => BitVec.ofNat w (ofLittle s.reverse)
  rw [big,reverse_reverse,ofLittle_little h,BitVec.ofNat_toNat,BitVec.setWidth_eq] at hp
  exact hp

theorem Parses.big {f : BitVec w → Reader α} (hf : Parses (f x) t a) (h : 8 ∣ w := by decide) :
    Parses (readBig w >>= f) (big x++t) a := (parses_big h x).bind hf

theorem Parses.little {f : BitVec w → Reader α} (hf : Parses (f x) t a) (h : 8 ∣ w := by decide) :
    Parses (readLittle w >>= f) (little x++t) a := (parses_little h x).bind hf

variable {r : Reader α} {f : α → Bytes} {n : ℕ}

section
variable (h : ∀ a, Parses r (f a) a)
include h

theorem Parses.vector (v : List.Vector α n) :
    Parses (readVector r n) (v.toList.flatMap f) v := by
  induction v with
  | nil => exact Parses.pure _
  | cons ih =>
    rw [Vector.toList_cons,flatMap_cons]
    exact (h _).bind (ih.map _)

theorem Parses.count (l : List α) :
    Parses (readCount r l.length) (l.flatMap f) l :=
  (Parses.vector h (⟨l,rfl⟩ : List.Vector α l.length)).map List.Vector.toList

theorem Parses.optional (o : Option α) :
    Parses (readOptional o.isSome r) ((o.map f).getD []) o := by
  cases o with
  | none => exact Parses.pure none
  | some a => exact (h a).map some

end

variable (l : List α) (h : ∀ a ∈ l, Parses r (f a) a ∧ f a ≠ [])
include l h

theorem parses_rounds (hn : (l.flatMap f).length ≤ n) :
    readRounds r n (l.flatMap f) = some (l,[]) := by
  induction l generalizing n with
  | nil => cases n <;> rfl
  | cons a l ih =>
    obtain ⟨ha,h0⟩ := h a mem_cons_self
    rw [flatMap_cons] at hn ⊢
    have hpos := length_pos_of_ne_nil h0
    rw [length_append] at hn
    obtain ⟨n,rfl⟩ : ∃ m, n = m+1 := ⟨n-1,by omega⟩
    have hl := ih (fun b hb => h b (mem_cons_of_mem a hb)) (n := n) (by omega)
    rw [readRounds,if_neg (append_ne_nil_of_left_ne_nil h0 _)]
    rw [ha,bind_some,hl,map_some]

theorem parses_all :
    readAll r (l.flatMap f) = some (l,[]) :=
  parses_rounds l h le_rfl

end

/-- A successful read takes `n` bytes. -/
def Consumes (r : Reader α) (n : ℕ) : Prop :=
  ∀ s a rest, r s = some (a,rest) → s.length = n+rest.length

theorem Consumes.pure (a : α) : Consumes (Pure.pure a) 0 := by
  intro s b rest h
  cases h
  exact (zero_add _).symm

theorem Consumes.failure (n : ℕ) : Consumes (failure : Reader α) n := fun _ _ _ h => nomatch h

variable {r : Reader α} {s rest : Bytes} {f : α → Reader β} {l : List α} {n k w m : ℕ}

theorem bind_eq_some {b : β} (h : (r >>= f) s = some (b,rest)) :
    ∃ a t, r s = some (a,t) ∧ f a t = some (b,rest) := by
  obtain ⟨⟨a,t⟩,hr,hf⟩ := bind_eq_some_iff.mp h
  exact ⟨a,t,hr,hf⟩

theorem Consumes.bind (hr : Consumes r n) (hf : ∀ a, Consumes (f a) m) :
    Consumes (r >>= f) (n+m) := by
  intro s b rest h
  obtain ⟨a,t,ha,hb⟩ := bind_eq_some h
  rw [hr s a t ha,hf a t b rest hb,add_assoc]

theorem Consumes.map (hr : Consumes r n) (f : α → β) :
    Consumes (do let x ← r; Pure.pure (f x)) n :=
  hr.bind fun a => Consumes.pure (f a)

theorem consumes_take (n : ℕ) : Consumes (take n) n := by
  intro s a rest h
  unfold take at h
  split_ifs at h with hn
  cases h
  rw [length_drop]
  omega

theorem consumes_little (w : ℕ) : Consumes (readLittle w) (w/8) := (consumes_take _).map _

theorem consumes_big (w : ℕ) : Consumes (readBig w) (w/8) := (consumes_take _).map _

theorem Consumes.big {f : BitVec w → Reader α} (hf : ∀ x, Consumes (f x) n) :
    Consumes (readBig w >>= f) (w/8+n) := (consumes_big w).bind hf

theorem Consumes.little {f : BitVec w → Reader α} (hf : ∀ x, Consumes (f x) n) :
    Consumes (readLittle w >>= f) (w/8+n) := (consumes_little w).bind hf

theorem Parses.length {a : α} (hp : Parses r s a) (hc : Consumes r n) :
    s.length = n := hc s a [] hp.eq

theorem Consumes.vector (hr : Consumes r k) (n : ℕ) : Consumes (readVector r n) (n*k) := by
  induction n with
  | zero =>
    rw [zero_mul]
    exact Consumes.pure _
  | succ n ih =>
    rw [succ_mul,add_comm (n*k)]
    exact hr.bind fun a => ih.map _

theorem Consumes.count (hr : Consumes r k) (n : ℕ) :
    Consumes (readCount r n) (n*k) := (hr.vector n).map _

theorem Consumes.optional (hr : Consumes r n) (present : Bool) :
    Consumes (readOptional present r) (if present then n else 0) := by
  unfold readOptional
  split_ifs
  · exact hr.map some
  · exact Consumes.pure none

theorem rounds_length (hr : Consumes r k) (h : readRounds r n s = some (l,rest)) :
    rest = [] ∧ s.length = l.length*k := by
  induction n generalizing s l with
  | zero =>
    unfold readRounds at h
    split_ifs at h with hs
    cases h
    exact ⟨hs,by rw [hs,length_nil,length_nil,zero_mul]⟩
  | succ n ih =>
    unfold readRounds at h
    split_ifs at h with hs
    · cases h
      exact ⟨hs,by rw [hs,length_nil,length_nil,zero_mul]⟩
    · obtain ⟨⟨a,t⟩,ha,ht⟩ := bind_eq_some_iff.mp h
      obtain ⟨⟨m,u⟩,hm,hu⟩ := map_eq_some_iff.mp ht
      cases hu
      obtain ⟨h0,hlen⟩ := ih hm
      rw [hr s a t ha,hlen,length_cons,succ_mul,add_comm]
      exact ⟨h0,rfl⟩

theorem all_first (h : readAll r s = some (l,rest)) (h0 : l ≠ []) : ∃ x, r s = some x := by
  unfold readAll at h
  cases s with
  | nil =>
    cases h
    exact absurd rfl h0
  | cons b s =>
    rw [length_cons,readRounds,if_neg (cons_ne_nil b s)] at h
    obtain ⟨x,hx,-⟩ := bind_eq_some_iff.mp h
    exact ⟨x,hx⟩

theorem all_length (hr : Consumes r k) (h : readAll r s = some (l,rest)) :
    rest = [] ∧ s.length = l.length*k := rounds_length hr h

end Wire
