import Mathlib.Data.Nat.Digits.Lemmas

/-!
# Words of digits

A number below a power of the base and its word of that many digits, the
lowest digit first, determine each other. Read from the highest digit on,
words of one length are ordered like the numbers.
-/

namespace Digits

def digits (b : ℕ) : ℕ → ℕ → List ℕ
  | 0,_ => []
  | i+1,n => n%b::digits b i (n/b)

variable {b : ℕ} {α : Type*}

@[simp] theorem length_digits (i n : ℕ) : (digits b i n).length = i := by
  induction i generalizing n with
  | zero => rfl
  | succ i ih => simp [digits,ih]

theorem digits_lt (hb : 0 < b) {i n d : ℕ} (h : d ∈ digits b i n) : d < b := by
  induction i generalizing n with
  | zero => cases h
  | succ i ih =>
    rcases List.mem_cons.mp h with rfl | h
    · exact Nat.mod_lt n hb
    · exact ih h

theorem ofDigits_digits (i n : ℕ) (h : n < b^i) : Nat.ofDigits b (digits b i n) = n := by
  induction i generalizing n with
  | zero =>
    rw [Nat.pow_zero,Nat.lt_one_iff] at h
    simp [digits,h]
  | succ i ih =>
    have hn : n/b < b^i := Nat.div_lt_of_lt_mul (by rwa [← Nat.pow_succ'])
    rw [digits,Nat.ofDigits_cons,ih _ hn]
    exact Nat.mod_add_div n b

theorem digits_ofDigits (ds : List ℕ) (h : ∀ d ∈ ds, d < b) :
    digits b ds.length (Nat.ofDigits b ds) = ds := by
  induction ds with
  | nil => rfl
  | cons d ds ih =>
    rw [List.forall_mem_cons] at h
    have hb : 0 < b := Nat.zero_lt_of_lt h.1
    rw [List.length_cons,digits,Nat.ofDigits_cons,Nat.add_mul_mod_self_left,
      Nat.mod_eq_of_lt h.1,Nat.add_mul_div_left _ _ hb,Nat.div_eq_of_lt h.1,Nat.zero_add,ih h.2]

theorem lt_append [LT α] {l m : List α} (h : l < m) (hlen : l.length = m.length) (l' m' : List α) :
    l++l' < m++m' := by
  induction h with
  | nil => cases hlen
  | cons _ ih => exact List.Lex.cons (ih (Nat.succ.inj hlen))
  | rel h => exact List.Lex.rel h

theorem digits_lex [LT α] {f : ℕ → α} (hb : 0 < b) (hf : ∀ d e, d < e → e < b → f d < f e)
    (i n m : ℕ) (h : n < m) (hm : m < b^i) :
    ((digits b i n).map f).reverse < ((digits b i m).map f).reverse := by
  induction i generalizing n m with
  | zero =>
    rw [Nat.pow_zero] at hm
    omega
  | succ i ih =>
    have hq : m/b < b^i := Nat.div_lt_of_lt_mul (by rwa [← Nat.pow_succ'])
    simp only [digits,List.map_cons,List.reverse_cons]
    rcases Nat.lt_or_eq_of_le (Nat.div_le_div_right (c := b) h.le) with hlt | heq
    · -- a higher digit decides
      exact lt_append (ih _ _ hlt hq) (by simp) _ _
    · have hmod : n%b < m%b := by
        have hn := Nat.div_add_mod n b
        have hm := Nat.div_add_mod m b
        rw [heq] at hn
        omega
      rw [heq]
      exact List.append_left_lt (List.Lex.rel (hf _ _ hmod (Nat.mod_lt m hb)))

end Digits
