import Vxldollar.Blocks
import Vxldollar.Library.Batches
import Vxldollar.Library.Cursors
import Vxldollar.Library.Loop

/-!
# Frontier requests

The client and the server of a frontier request walk through their account tables
side by side. The server sends up to the requested number of records and an empty
one; the client merges them with its own accounts, and sets the account that the
next request starts after. The counter of the client has 32 bits.
-/

namespace Vxldollar.FrontierSync
open List hiding after
open Std Blocks Batches Loop Nat

abbrev Heads := ExtTreeMap Account BlockHash

abbrev Cursor := Reader 256 BlockHash

abbrev Record := Account × BlockHash

def maxSize : ℕ := 128

def lastAccount : Account := BitVec.allOnes 256

def bulkPushCostLimit : ℕ := 200

structure Pull where
  account : Account
  head : BlockHash
  stop : BlockHash
  deriving DecidableEq, Repr

/-- What the requests of an attempt leave behind: the calls of `add_frontier`, those
of `add_bulk_push_target` and the start of the next request. -/
structure Attempt where
  startAccount : Account
  pulls : List Pull := []
  targets : List (BlockHash × BlockHash) := []
  deriving DecidableEq, Repr

structure Client where
  cursor : Cursor
  count : BitVec 32 := 0
  countLimit : BitVec 32
  last : Account := lastAccount
  bulkPushCost : ℕ := 0
  attempt : Attempt
  deriving DecidableEq, Repr

namespace Client

def bulkPushAvailable (c : Client) : Bool := decide (c.bulkPushCost < bulkPushCostLimit)

def unsynced (c : Client) (head stop : BlockHash) : Client :=
  if c.bulkPushAvailable then
    { c with
      attempt.targets := c.attempt.targets++[(head,stop)]
      bulkPushCost := c.bulkPushCost+if stop = 0 then 2 else 1 }
  else c

def next (A : Heads) (c : Client) : Client := { c with cursor := c.cursor.next maxSize A }

def addFrontier (c : Client) (p : Pull) : Client :=
  { c with attempt.pulls := c.attempt.pulls++[p] }

def skipStep (A : Heads) (account : Account) (c : Client) : Option (Client ⊕ Client) :=
  if c.cursor.current ≠ 0 ∧ c.cursor.current < account then
    some (.inl ((c.unsynced c.cursor.value 0).next A))
  else some (.inr c)

def restStep (A : Heads) (c : Client) : Option (Client ⊕ Client) :=
  if c.cursor.current ≠ 0 ∧ c.bulkPushAvailable then
    some (.inl ((c.unsynced c.cursor.value 0).next A))
  else some (.inr c)

def compareFrontier (A : Heads) (known : BlockHash → Bool) (c : Client) (account : Account)
    (latest : BlockHash) : Client :=
  if c.cursor.current ≠ 0 ∧ account = c.cursor.current then
    let c :=
      if latest = c.cursor.value then c
      else if known latest then c.unsynced c.cursor.value latest
      else { c.addFrontier ⟨account,latest,c.cursor.value⟩ with bulkPushCost := c.bulkPushCost+5 }
    c.next A
  else c.addFrontier ⟨account,latest,0⟩

/-- `received_frontier`: the client goes on, or the attempt gets its new start. -/
def receivedFrontier (fuel : ℕ) (A : Heads) (known : BlockHash → Bool) (c : Client)
    (record : Record) : Option (Client ⊕ Attempt) :=
  let c := { c with count := c.count+1 }
  if record.1 ≠ 0 ∧ c.count ≤ c.countLimit then
    (loop (skipStep A record.1) fuel { c with last := record.1 }).map fun c =>
      .inl (c.compareFrontier A known record.1 record.2)
  else if c.count ≤ c.countLimit then
    (loop (restStep A) fuel c).map fun c => .inr { c.attempt with startAccount := lastAccount }
  else some (.inr { c.attempt with startAccount := c.last })

def receive (fuel : ℕ) (A : Heads) (known : BlockHash → Bool) :
    Client → List Record → Option Attempt
  | _,[] => none
  | c,record::records => match c.receivedFrontier fuel A known record with
    | none => none
    | some (.inl c) => c.receive fuel A known records
    | some (.inr attempt) => some attempt

def run (A : Heads) (attempt : Attempt) (count : BitVec 32) : Client :=
  { cursor := { current := attempt.startAccount, value := 0 : Cursor }.next maxSize A
    countLimit := count
    attempt := attempt }

end Client

def requestStart (start : Account) : Account :=
  if start = 0 ∨ start = lastAccount then start else start+1

structure Server where
  cursor : Cursor
  count : ℕ := 0
  sent : List Record := []
  deriving DecidableEq, Repr

/-- The server begins one before the named account, which may wrap around. -/
def Server.start (B : Heads) (request : Account) : Server :=
  { cursor := { current := request-1, value := 0 : Cursor }.next maxSize B }

def Server.sendNext (B : Heads) (count : BitVec 32) (s : Server) :
    Option (Server ⊕ List Record) :=
  if s.cursor.current ≠ 0 ∧ s.count < count.toNat then
    some (.inl {
      cursor := s.cursor.next maxSize B
      count := s.count+1
      sent := s.sent++[(s.cursor.current,s.cursor.value)] })
  else some (.inr (s.sent++[(0,0)]))

def request (fuel : ℕ) (A B : Heads) (known : BlockHash → Bool) (count : BitVec 32)
    (attempt : Attempt) : Option Attempt := do
  let records ← loop (Server.sendNext B count) fuel (.start B (requestStart attempt.startAccount))
  (Client.run A attempt count).receive fuel A known records

/-- Requests follow each other until the start account is the last one. -/
def exchangeStep (fuel : ℕ) (A B : Heads) (known : BlockHash → Bool) (count : BitVec 32)
    (attempt : Attempt) : Option (Attempt ⊕ List Pull) :=
  (request fuel A B known count attempt).map fun attempt =>
    if attempt.startAccount = lastAccount then .inr attempt.pulls else .inl attempt

def exchange (fuel : ℕ) (A B : Heads) (known : BlockHash → Bool) (count : BitVec 32) :
    Option (List Pull) :=
  loop (exchangeStep fuel A B known count) fuel ⟨0,[],[]⟩

section
variable (A B : Heads) (known : BlockHash → Bool)

def due (e : Record) : List Pull := match A[e.1]? with
  | none => [⟨e.1,e.2,0⟩]
  | some head => if e.2 = head ∨ known e.2 = true then [] else [⟨e.1,e.2,head⟩]

/-- In ascending order, one pull for each account that only the server has and for
each that both have with a head that the client does not know. -/
structure Joins (pulls : List Pull) : Prop where
  ascending : pulls.Pairwise fun p q => p.account < q.account
  mem_iff : ∀ p, p ∈ pulls ↔ B[p.account]? = some p.head ∧
    (A[p.account]? = none ∧ p.stop = 0 ∨
      A[p.account]? = some p.stop ∧ p.head ≠ p.stop ∧ known p.head = false)

end

variable {A B : Heads} {known : BlockHash → Bool} {fuel : ℕ} {c : Client}
  {l : List Record}

theorem after_length (m : Heads) (a : Account) : (after m a).length ≤ m.size := by
  rw [← ExtTreeMap.length_toList,after,since_eq_filter]
  exact length_filter_le _ _

theorem server_sends (P : Proper B) (count : BitVec 32) {s : Server} (R : Ready B s.cursor l)
    (hf : l.length < fuel) : loop (Server.sendNext B count) fuel s =
      some (s.sent++l.take (count.toNat-s.count)++[(0,0)]) := by
  induction l generalizing s fuel with
  | nil =>
    obtain ⟨n,rfl⟩ : ∃ n, fuel = n+1 := ⟨fuel-1,by omega⟩
    have hz := R.current_nil
    rw [loop_leave (by rw [Server.sendNext,if_neg (fun h => h.1 hz)])]
    simp
  | cons e l ih =>
    obtain ⟨n,rfl⟩ : ∃ n, fuel = n+1 := ⟨fuel-1,by omega⟩
    rw [length_cons] at hf
    by_cases hc : s.count < count.toNat
    · rw [loop_continue (by rw [Server.sendNext,if_pos ⟨R.current_ne,hc⟩]),
        ih (R.next (by decide) P) (by omega),R.current_eq.1,R.current_eq.2]
      obtain ⟨j,hj⟩ : ∃ j, count.toNat-s.count = j+1 := ⟨count.toNat-s.count-1,by omega⟩
      have hj' : count.toNat-(s.count+1) = j := by omega
      simp [hj,hj']
    · rw [loop_leave (by rw [Server.sendNext,if_neg (fun h => hc h.2)])]
      simp [Nat.sub_eq_zero_of_le (Nat.le_of_not_lt hc)]

theorem response (P : Proper B) (count : BitVec 32) {start : Account} (hs : start ≠ lastAccount)
    (hf : B.size < fuel) : loop (Server.sendNext B count) fuel (.start B (requestStart start)) =
      some ((after B start).take count.toNat++[(0,0)]) := by
  have hstart : after B (requestStart start-1) = after B start := by
    by_cases hz : start = 0
    · rw [requestStart,if_pos (.inl hz),hz]
      exact (after_last).trans (after_zero P).symm
    · rw [requestStart,if_neg (not_or.mpr ⟨hz,hs⟩),add_sub_cancel_right]
  have hr : Ready B (Server.start B (requestStart start)).cursor (after B start) := by
    rw [← hstart]
    exact next_ready (by decide) P (loaded_nil rfl)
  rw [server_sends P count hr (by have := after_length B start; omega)]
  rfl

section
structure Agrees (c d : Client) : Prop where
  count : d.count = c.count
  countLimit : d.countLimit = c.countLimit
  last : d.last = c.last
  pulls : d.attempt.pulls = c.attempt.pulls

theorem Agrees.trans {c d e : Client} (h : Agrees c d) (h' : Agrees d e) : Agrees c e :=
  ⟨h'.count.trans h.count,h'.countLimit.trans h.countLimit,h'.last.trans h.last,
    h'.pulls.trans h.pulls⟩

theorem unsynced_agrees (c : Client) (head stop : BlockHash) : Agrees c (c.unsynced head stop) := by
  simp only [Client.unsynced]
  split <;> exact ⟨rfl,rfl,rfl,rfl⟩

theorem unsynced_cursor (c : Client) (head stop : BlockHash) :
    (c.unsynced head stop).cursor = c.cursor := by
  simp only [Client.unsynced]
  split <;> rfl

variable {e : Record}

theorem passed (P : Proper A) (R : Ready A c.cursor (e::l)) (head : BlockHash) :
    Ready A ((c.unsynced head 0).next A).cursor l ∧ Agrees c ((c.unsynced head 0).next A) := by
  constructor
  · rw [Client.next,unsynced_cursor]
    exact R.next (by decide) P
  · exact (unsynced_agrees c head 0).trans ⟨rfl,rfl,rfl,rfl⟩

theorem skip_loop (P : Proper A) (account : Account) (R : Ready A c.cursor l)
    (hf : l.length < fuel) : ∃ d, loop (Client.skipStep A account) fuel c = some d ∧
      Ready A d.cursor (l.dropWhile fun e => decide (e.1 < account)) ∧ Agrees c d := by
  induction l generalizing c fuel with
  | nil =>
    obtain ⟨n,rfl⟩ : ∃ n, fuel = n+1 := ⟨fuel-1,by omega⟩
    have hz := R.current_nil
    rw [loop_leave (by rw [Client.skipStep,if_neg (fun h => h.1 hz)])]
    exact ⟨c,rfl,R,rfl,rfl,rfl,rfl⟩
  | cons e l ih =>
    obtain ⟨n,rfl⟩ : ∃ n, fuel = n+1 := ⟨fuel-1,by omega⟩
    rw [length_cons] at hf
    by_cases hlt : e.1 < account
    · have hcur : c.cursor.current < account := R.current_eq.1 ▸ hlt
      obtain ⟨hR,hA⟩ := passed P R c.cursor.value
      obtain ⟨d,hd,hRd,hAd⟩ := ih hR (lt_of_succ_lt_succ hf)
      rw [loop_continue (by rw [Client.skipStep,if_pos ⟨R.current_ne,hcur⟩]),
        dropWhile_cons,if_pos (decide_eq_true hlt)]
      exact ⟨d,hd,hRd,hA.trans hAd⟩
    · have hcur : ¬ c.cursor.current < account := R.current_eq.1 ▸ hlt
      rw [loop_leave (by rw [Client.skipStep,if_neg (fun h => hcur h.2)]),
        dropWhile_cons,if_neg (by simpa using hlt)]
      exact ⟨c,rfl,R,rfl,rfl,rfl,rfl⟩

theorem rest_loop (P : Proper A) (R : Ready A c.cursor l) (hf : l.length < fuel) :
    ∃ d, loop (Client.restStep A) fuel c = some d ∧ Agrees c d := by
  induction l generalizing c fuel with
  | nil =>
    obtain ⟨n,rfl⟩ : ∃ n, fuel = n+1 := ⟨fuel-1,by omega⟩
    have hz := R.current_nil
    rw [loop_leave (by rw [Client.restStep,if_neg (fun h => h.1 hz)])]
    exact ⟨c,rfl,rfl,rfl,rfl,rfl⟩
  | cons e l ih =>
    obtain ⟨n,rfl⟩ : ∃ n, fuel = n+1 := ⟨fuel-1,by omega⟩
    rw [length_cons] at hf
    by_cases ha : c.bulkPushAvailable = true
    · obtain ⟨hR,hA⟩ := passed P R c.cursor.value
      obtain ⟨d,hd,hAd⟩ := ih hR (lt_of_succ_lt_succ hf)
      rw [loop_continue (by rw [Client.restStep,if_pos ⟨R.current_ne,ha⟩])]
      exact ⟨d,hd,hA.trans hAd⟩
    · rw [loop_leave (by rw [Client.restStep,if_neg (fun h => ha h.2)])]
      exact ⟨c,rfl,rfl,rfl,rfl,rfl⟩

/-- The cursor is at the first account that is not below the record. -/
theorem compare_due (known : BlockHash → Bool) (P : Proper A) (he : e.1 ≠ lastAccount)
    (R : Ready A c.cursor (since A e.1)) :
    Ready A (c.compareFrontier A known e.1 e.2).cursor (after A e.1) ∧
    (c.compareFrontier A known e.1 e.2).attempt.pulls = c.attempt.pulls++due A known e ∧
    (c.compareFrontier A known e.1 e.2).count = c.count ∧
    (c.compareFrontier A known e.1 e.2).countLimit = c.countLimit ∧
    (c.compareFrontier A known e.1 e.2).last = c.last := by
  rw [since_lookup he] at R
  cases hA : A[e.1]? with
  | none =>
    rw [hA] at R
    have hne : ¬ (c.cursor.current ≠ 0 ∧ e.1 = c.cursor.current) := by
      rintro ⟨hcur,heq⟩
      cases hl : after A e.1 with
      | nil =>
        rw [hl] at R
        exact hcur R.current_nil
      | cons x t =>
        rw [hl] at R
        have hx : x ∈ after A e.1 := hl ▸ mem_cons_self
        have hget := (Table.mem_entries A x.1 x.2).mp (mem_since.mp hx).1
        rw [← R.current_eq.1,← heq,hA] at hget
        cases hget
    simp only [Client.compareFrontier,if_neg hne,due,hA]
    exact ⟨R,rfl,rfl,rfl,rfl⟩
  | some head =>
    rw [hA] at R
    have heq : c.cursor.current ≠ 0 ∧ e.1 = c.cursor.current := ⟨R.current_ne,R.current_eq.1.symm⟩
    have hval : c.cursor.value = head := R.current_eq.2
    simp only [Client.compareFrontier,if_pos heq,due,hA,hval]
    by_cases hh : e.2 = head
    · simp only [if_pos hh,if_pos (Or.inl hh),append_nil]
      exact ⟨R.next (by decide) P,rfl,rfl,rfl,rfl⟩
    · by_cases hk : known e.2 = true
      · have hU := unsynced_agrees c head e.2
        simp only [if_neg hh,if_pos hk,if_pos (Or.inr hk),append_nil]
        refine ⟨?_,hU.pulls,hU.count,hU.countLimit,hU.last⟩
        rw [Client.next,unsynced_cursor]
        exact R.next (by decide) P
      · simp only [if_neg hh,if_neg hk,if_neg (not_or.mpr ⟨hh,hk⟩)]
        exact ⟨R.next (by decide) P,rfl,rfl,rfl,rfl⟩

theorem received (known : BlockHash → Bool) (P : Proper A) {a : Account}
    (R : Ready A c.cursor (after A a)) (ha : a ≠ lastAccount) (hae : a < e.1)
    (he : e.1 ≠ lastAccount) (hz : e.1 ≠ 0) (hc : c.count+1 ≤ c.countLimit) (hf : A.size < fuel) :
    ∃ d, c.receivedFrontier fuel A known e = some (.inl d) ∧ Ready A d.cursor (after A e.1) ∧
      d.attempt.pulls = c.attempt.pulls++due A known e ∧ d.count = c.count+1 ∧
      d.countLimit = c.countLimit ∧ d.last = e.1 := by
  obtain ⟨d,hd,hR,hA⟩ := skip_loop P e.1 (c := { c with count := c.count+1, last := e.1 }) R
    ((after_length A a).trans_lt hf)
  rw [after_dropWhile ha hae] at hR
  obtain ⟨hR',hpulls,hcount,hlimit,hlast⟩ := compare_due known P he hR
  refine ⟨_,?_,hR',hpulls.trans (by rw [hA.pulls]),hcount.trans hA.count,hlimit.trans hA.countLimit,
    hlast.trans hA.last⟩
  simp only [Client.receivedFrontier,if_pos (And.intro hz hc),hd,Option.map_some]

theorem received_end (known : BlockHash → Bool) (P : Proper A) (R : Ready A c.cursor l)
    (hf : l.length < fuel) :
    ∃ attempt, c.receivedFrontier fuel A known (0,0) = some (.inr attempt) ∧
      attempt.pulls = c.attempt.pulls ∧
      attempt.startAccount = if c.count+1 ≤ c.countLimit then lastAccount else c.last := by
  simp only [Client.receivedFrontier]
  by_cases hc : c.count+1 ≤ c.countLimit
  · obtain ⟨d,hd,hA⟩ := rest_loop P (c := { c with count := c.count+1 }) R hf
    simp only [if_pos hc,hd]
    exact ⟨_,rfl,hA.pulls,rfl⟩
  · simp only [if_neg hc]
    exact ⟨_,rfl,rfl,rfl⟩

theorem counter_le {n k : BitVec 32} (h : n.toNat ≤ k.toNat) :
    n+1 ≤ k ↔ n.toNat < k.toNat ∨ k = BitVec.allOnes 32 := by
  have hall : k = BitVec.allOnes 32 ↔ k.toNat = 2^32-1 := by
    rw [← BitVec.toNat_inj,BitVec.toNat_allOnes]
  rw [hall,BitVec.le_def,BitVec.toNat_add]
  have hone : (1 : BitVec 32).toNat = 1 := rfl
  have hk := k.isLt
  rw [hone]
  omega

structure Stream (a : Account) (l : List Record) : Prop where
  ascending : (a::l.map Prod.fst).Pairwise (· < ·)
  ne_last : ∀ e ∈ l, e.1 ≠ lastAccount

theorem Stream.cons {a : Account} (S : Stream a (e::l)) :
    a < e.1 ∧ e.1 ≠ lastAccount ∧ e.1 ≠ 0 ∧ Stream e.1 l := by
  have hs := S.ascending
  rw [map_cons] at hs
  obtain ⟨ha,hs⟩ := pairwise_cons.mp hs
  have hae := ha e.1 mem_cons_self
  refine ⟨hae,S.ne_last e mem_cons_self,fun hz => ?_,hs,fun x hx =>
    S.ne_last x (mem_cons_of_mem _ hx)⟩
  rw [hz] at hae
  exact not_lt_zero _ hae

theorem received_all (known : BlockHash → Bool) (P : Proper A) {a : Account} (ha : a ≠ lastAccount)
    (R : Ready A c.cursor (after A a)) (S : Stream a l)
    (hc : c.count.toNat+l.length ≤ c.countLimit.toNat) (hf : A.size < fuel) :
    ∃ attempt, c.receive fuel A known (l++[(0,0)]) = some attempt ∧
      attempt.pulls = c.attempt.pulls++l.flatMap (due A known) ∧
      attempt.startAccount =
        if c.count.toNat+l.length < c.countLimit.toNat ∨ c.countLimit = BitVec.allOnes 32 then
          lastAccount
        else (l.getLast?.map Prod.fst).getD c.last := by
  induction l generalizing c a with
  | nil =>
    obtain ⟨attempt,h,hpulls,hstart⟩ := received_end known P R
      ((after_length A a).trans_lt hf)
    refine ⟨attempt,?_,by simpa using hpulls,?_⟩
    · simp only [nil_append,Client.receive,h]
    · rw [hstart]
      exact if_congr (counter_le hc) rfl rfl
  | cons e l ih =>
    obtain ⟨hae,he,hz,S'⟩ := S.cons
    rw [length_cons] at hc
    have hlt := c.countLimit.isLt
    have hcount : (c.count+1).toNat = c.count.toNat+1 := by
      rw [BitVec.toNat_add]
      exact mod_eq_of_lt (by simp; omega)
    obtain ⟨d,hd,hR,hpulls,hdc,hdl,hlast⟩ := received known P R ha hae he hz
      (by rw [BitVec.le_def,hcount]; omega) hf
    obtain ⟨attempt,h,hp,hs⟩ := ih he hR S' (by rw [hdc,hdl,hcount]; omega)
    refine ⟨attempt,?_,?_,?_⟩
    · simp only [cons_append,Client.receive,hd,h]
    · rw [hp,hpulls,flatMap_cons,append_assoc]
    · have hlast' : ((e::l).getLast?.map Prod.fst).getD c.last =
          (l.getLast?.map Prod.fst).getD e.1 := by
        rw [getLast?_cons]
        cases l.getLast? <;> rfl
      rw [hs,hdc,hdl,hcount,hlast,hlast',length_cons,add_right_comm,add_assoc]

end

section
variable {count : BitVec 32} {attempt : Attempt}

theorem after_stream (P : Proper B) {a : Account} (ha : a ≠ lastAccount) (n : ℕ) :
    Stream a ((after B a).take n) where
  ascending := by
    rw [pairwise_cons]
    constructor
    · intro b hb
      obtain ⟨e,he,rfl⟩ := mem_map.mp hb
      have := (take_sublist n _).subset he
      rw [after_eq_filter ha,mem_filter,decide_eq_true_eq] at this
      exact this.2
    · rw [pairwise_map]
      exact sorted_since.sublist (take_sublist n _)
  ne_last e he := P.ne_last e (mem_since.mp ((take_sublist n _).subset he)).1

theorem request_calls (PA : Proper A) (PB : Proper B) (known : BlockHash → Bool)
    (hs : attempt.startAccount ≠ lastAccount) (hf : A.size < fuel) (hf' : B.size < fuel) :
    ∃ attempt', request fuel A B known count attempt = some attempt' ∧
      attempt'.pulls = attempt.pulls++
        ((after B attempt.startAccount).take count.toNat).flatMap (due A known) ∧
      attempt'.startAccount =
        if (after B attempt.startAccount).length < count.toNat ∨ count = BitVec.allOnes 32 then
          lastAccount
        else (((after B attempt.startAccount).take count.toNat).getLast?.map Prod.fst).getD
          lastAccount := by
  have hR : Ready A (Client.run A attempt count).cursor (after A attempt.startAccount) :=
    next_ready (by decide) PA (loaded_nil rfl)
  obtain ⟨attempt',h,hpulls,hstart⟩ := received_all known PA hs hR
    (after_stream PB hs count.toNat) (by simp [Client.run]) hf
  refine ⟨attempt',?_,hpulls,?_⟩
  · rw [request,response PB count hs hf']
    exact h
  · rw [hstart]
    apply if_congr _ rfl rfl
    simp [Client.run]

theorem response_last (PB : Proper B) {a : Account} {n : ℕ} (hn : 0 < n)
    (hl : n ≤ (after B a).length) : ∃ e, ((after B a).take n).getLast? = some e ∧
      e.1 ≠ lastAccount ∧ after B e.1 = (after B a).drop n := by
  obtain ⟨p,e,hpe⟩ := eq_nil_or_concat ((after B a).take n) |>.resolve_left (by
    intro h
    have := congrArg length h
    rw [length_take,length_nil] at this
    omega)
  have hsplit : after B a = p++e::(after B a).drop n := by
    rw [append_cons,← concat_eq_append,← hpe,take_append_drop]
  have hmem : e ∈ after B a := hsplit ▸ mem_append_right p mem_cons_self
  have he := PB.ne_last e (mem_since.mp hmem).1
  refine ⟨e,?_,he,(since_split hsplit he).symm⟩
  rw [hpe,concat_eq_append,getLast?_concat]

theorem exchange_calls (PA : Proper A) (PB : Proper B) (known : BlockHash → Bool) (hn : count ≠ 0)
    (attempt : Attempt) (hs : attempt.startAccount ≠ lastAccount) (hf : A.size < fuel)
    (hf' : B.size < fuel) {k : ℕ} (hk : (after B attempt.startAccount).length < k) :
    loop (exchangeStep fuel A B known count) k attempt = some (attempt.pulls++
      (if count = BitVec.allOnes 32 then (after B attempt.startAccount).take count.toNat
        else after B attempt.startAccount).flatMap (due A known)) := by
  induction k generalizing attempt with
  | zero => exact absurd hk (not_lt_zero _)
  | succ k ih =>
    obtain ⟨attempt',h,hpulls,hstart⟩ := request_calls PA PB known hs hf hf'
    by_cases hend : (after B attempt.startAccount).length < count.toNat ∨
        count = BitVec.allOnes 32
    · rw [if_pos hend] at hstart
      rw [loop_leave (r := attempt'.pulls) (by simp [exchangeStep,h,hstart]),hpulls]
      split
      · rfl
      · have hlt := hend.resolve_right ‹_›
        rw [take_of_length_le hlt.le]
    · have hlen := Nat.le_of_not_lt (not_or.mp hend).1
      have hpos : 0 < count.toNat := pos_of_ne_zero fun h0 =>
        hn (BitVec.eq_of_toNat_eq (by simpa using h0))
      obtain ⟨e,hlast,he,hrest⟩ := response_last PB hpos hlen
      rw [if_neg hend,hlast] at hstart
      change attempt'.startAccount = e.1 at hstart
      have hgo : exchangeStep fuel A B known count attempt = some (.inl attempt') := by
        simp [exchangeStep,h,hstart,he]
      rw [loop_continue hgo,ih attempt' (hstart ▸ he) (by rw [hstart,hrest,length_drop]; omega),
        hpulls,hstart,hrest,if_neg (not_or.mp hend).2,if_neg (not_or.mp hend).2,append_assoc,
        ← flatMap_append,take_append_drop]

theorem exchange_eq (PA : Proper A) (PB : Proper B) (known : BlockHash → Bool) (hn : count ≠ 0)
    (hf : A.size < fuel) (hf' : B.size < fuel) :
    exchange fuel A B known count = some ((if count = BitVec.allOnes 32 then
      B.toList.take count.toNat else B.toList).flatMap (due A known)) := by
  have hzero : after B (0 : Account) = B.toList := after_zero PB
  have hstart : (0 : Account) ≠ lastAccount := by decide
  have h := exchange_calls PA PB known hn ⟨0,[],[]⟩ hstart hf hf'
    ((after_length B 0).trans_lt hf')
  rw [exchange,h,nil_append,hzero]

end
theorem mem_due {e : Record} {p : Pull} : p ∈ due A known e ↔
    p.account = e.1 ∧ p.head = e.2 ∧ (A[p.account]? = none ∧ p.stop = 0 ∨
      A[p.account]? = some p.stop ∧ p.head ≠ p.stop ∧ known p.head = false) := by
  obtain ⟨account,head,stop⟩ := p
  constructor
  · intro h
    simp only [due] at h
    cases hA : A[e.1]? with
    | none =>
      rw [hA,mem_singleton] at h
      cases h
      exact ⟨rfl,rfl,.inl ⟨hA,rfl⟩⟩
    | some f =>
      rw [hA] at h
      by_cases hk : e.2 = f ∨ known e.2 = true
      · simp only [if_pos hk] at h
        cases h
      · simp only [if_neg hk,mem_singleton] at h
        cases h
        rw [not_or,Bool.not_eq_true] at hk
        exact ⟨rfl,rfl,.inr ⟨hA,hk⟩⟩
  · rintro ⟨rfl,rfl,⟨hA,rfl⟩ | ⟨hA,hne,hk⟩⟩
    · dsimp only at hA
      simp [due,hA]
    · dsimp only at hA hne hk
      simp [due,hA,hne,hk]

theorem joins_toList (A B : Heads) (known : BlockHash → Bool) :
    Joins A B known (B.toList.flatMap (due A known)) where
  ascending := by
    rw [pairwise_flatMap]
    constructor
    · intro e he
      simp only [due]
      split
      · exact pairwise_singleton _ _
      · split
        · exact Pairwise.nil
        · exact pairwise_singleton _ _
    · apply sorted_toList.imp
      intro e f hef p hp q hq
      rw [(mem_due.mp hp).1,(mem_due.mp hq).1]
      exact hef
  mem_iff p := by
    simp only [mem_flatMap,mem_due]
    constructor
    · rintro ⟨e,he,hacc,hhead,h⟩
      rw [hacc,hhead,← Table.mem_entries]
      rw [hacc,hhead] at h
      exact ⟨he,h⟩
    · rintro ⟨hB,h⟩
      exact ⟨_,(Table.mem_entries B _ _).mpr hB,rfl,rfl,h⟩

theorem joins_take_iff (A B : Heads) (known : BlockHash → Bool) (n : ℕ) :
    Joins A B known ((B.toList.take n).flatMap (due A known)) ↔
      ∀ e ∈ B.toList.drop n, due A known e = [] := by
  have hfull := joins_toList A B known
  constructor
  · intro J e he
    rw [eq_nil_iff_forall_not_mem]
    intro p hp
    have hmem : p ∈ B.toList.flatMap (due A known) :=
      mem_flatMap.mpr ⟨e,mem_of_mem_drop he,hp⟩
    rw [hfull.mem_iff,← J.mem_iff] at hmem
    obtain ⟨f,hf,hpf⟩ := mem_flatMap.mp hmem
    have hs := sorted_toList (m := B)
    rw [← take_append_drop n B.toList] at hs
    have hlt := (pairwise_append.mp hs).2.2 f hf e he
    rw [← (mem_due.mp hp).1,← (mem_due.mp hpf).1] at hlt
    exact absurd hlt (BitVec.lt_irrefl _)
  · intro h
    have hnil : (B.toList.drop n).flatMap (due A known) = [] := by
      rw [flatMap_eq_nil_iff]
      exact h
    rw [← take_append_drop n B.toList,flatMap_append,hnil,append_nil] at hfull
    exact hfull

/-- The exchange always ends. Its calls are the join of the two tables unless the
greatest count is asked for and something is due behind that many accounts. -/
theorem exchange_joins_iff (A B : Heads) (known : BlockHash → Bool) (count : BitVec 32)
    (PA : Proper A) (PB : Proper B) (hn : count ≠ 0) :
    ∃ pulls, (∀ fuel, A.size < fuel → B.size < fuel →
        exchange fuel A B known count = some pulls) ∧
      (Joins A B known pulls ↔ count ≠ BitVec.allOnes 32 ∨
        ∀ e ∈ B.toList.drop (2^32-1), due A known e = []) := by
  refine ⟨_,fun fuel hf hf' => exchange_eq PA PB known hn hf hf',?_⟩
  by_cases hc : count = BitVec.allOnes 32
  · have hnat : count.toNat = 2^32-1 := by rw [hc,BitVec.toNat_allOnes]
    rw [if_pos hc,hnat,joins_take_iff]
    exact ⟨.inr,fun h => h.resolve_left fun h => h hc⟩
  · rw [if_neg hc]
    exact ⟨fun _ => .inl hc,fun _ => joins_toList A B known⟩

def sampleClient : Heads := Cursors.insertAll ∅ [(5,1),(7,2),(8,4)]

def sampleServer : Heads := Cursors.insertAll ∅ [(3,9),(5,1),(7,8),(8,6)]

theorem proper_of_all {m : Heads}
    (h : m.toList.all (fun e => e.1 ≠ 0 && e.1 ≠ lastAccount) = true) : Proper m := by
  simp only [all_eq_true,Bool.and_eq_true,decide_eq_true_eq] at h
  exact ⟨fun e he => (h e he).1,fun e he => (h e he).2⟩

theorem exchange_joins_iff_sample :
    exchange 6 sampleClient sampleServer (· = 6) 1 = some [⟨3,9,0⟩,⟨7,8,2⟩] ∧
    Joins sampleClient sampleServer (· = 6) [⟨3,9,0⟩,⟨7,8,2⟩] := by
  obtain ⟨pulls,hex,hj⟩ := exchange_joins_iff sampleClient sampleServer (· = 6) 1
    (proper_of_all (by decide +kernel)) (proper_of_all (by decide +kernel)) (by decide)
  have hrun : exchange 6 sampleClient sampleServer (· = 6) 1 = some [⟨3,9,0⟩,⟨7,8,2⟩] := by
    decide +kernel
  have heq := (hex 6 (by decide +kernel) (by decide +kernel)).symm.trans hrun
  rw [← Option.some.inj heq]
  exact ⟨hex 6 (by decide +kernel) (by decide +kernel),hj.mpr (.inl (by decide))⟩

def wideEntries (n : ℕ) : List Record := (range n).map fun i => (BitVec.ofNat 256 (i+1),1)

def wide (n : ℕ) : Heads := Cursors.insertAll ∅ (wideEntries n)

theorem wide_account {i j : ℕ} (hi : i < 2^32) (hj : j < 2^32)
    (h : BitVec.ofNat 256 (i+1) = BitVec.ofNat 256 (j+1)) : i = j := by
  have := congrArg BitVec.toNat h
  simp only [BitVec.toNat_ofNat] at this
  omega

theorem wide_holds {n : ℕ} (hn : n ≤ 2^32) : Cursors.Holds (wide n) (wideEntries n) := by
  have hnodup : ((wideEntries n).map Prod.fst).Nodup := by
    rw [wideEntries,map_map]
    apply Nodup.map_on _ nodup_range
    intro i hi j hj h
    exact wide_account ((mem_range.mp hi).trans_le hn) ((mem_range.mp hj).trans_le hn) h
  exact Cursors.holds_empty.insertAll hnodup

theorem wide_proper {n : ℕ} (hn : n ≤ 2^32) : Proper (wide n) := by
  have hacc : ∀ e ∈ (wide n).toList, ∃ i < 2^32, e.1.toNat = i+1 := by
    rintro ⟨a,h⟩ he
    rw [Table.mem_entries,(wide_holds hn).entries] at he
    obtain ⟨i,hi,heq⟩ := mem_map.mp he
    have hlt := (mem_range.mp hi).trans_le hn
    refine ⟨i,hlt,?_⟩
    rw [← (Prod.mk.inj heq).1,BitVec.toNat_ofNat]
    omega
  constructor
  · intro e he hz
    obtain ⟨i,hi,h⟩ := hacc e he
    rw [hz] at h
    simp at h
  · intro e he hz
    obtain ⟨i,hi,h⟩ := hacc e he
    rw [hz,BitVec.toNat_allOnes] at h
    omega

/-- With the greatest count the end of a longer table is lost. -/
theorem exchange_loses : ∃ A B known count, Proper A ∧ Proper B ∧ count ≠ 0 ∧
    ∃ pulls, (∀ fuel, A.size < fuel → B.size < fuel →
      exchange fuel A B known count = some pulls) ∧ ¬ Joins A B known pulls := by
  have hA : Proper (∅ : Heads) := ⟨by simp,by simp⟩
  have hB := wide_proper (Nat.le_refl (2^32))
  refine ⟨∅,wide (2^32),fun _ => false,BitVec.allOnes 32,hA,hB,by decide,_,
    fun fuel hf hf' => exchange_eq hA hB _ (by decide) hf hf',?_⟩
  rw [if_pos rfl,joins_take_iff]
  intro h
  have hlen : ((wide (2^32)).toList.drop (BitVec.allOnes 32).toNat).length = 1 := by
    rw [length_drop,ExtTreeMap.length_toList,(wide_holds le_rfl).size,BitVec.toNat_allOnes,
      wideEntries,length_map,length_range]
    omega
  obtain ⟨e,he⟩ := exists_mem_of_length_pos (hlen ▸ one_pos)
  have hdue := h e he
  simp [due] at hdue
end Vxldollar.FrontierSync
