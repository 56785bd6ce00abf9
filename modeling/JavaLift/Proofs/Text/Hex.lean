import JavaLift.Text.Hex
import Mathlib

namespace JavaLift.Text

theorem forall_mem_toDigits {p : Char → Prop} (h : ∀ d < 16, p (Nat.digitChar d)) (n : Nat) :
    ∀ c ∈ Nat.toDigits 16 n, p c := by
  induction n using Nat.strong_induction_on with
  | h n ih =>
      intro c hc
      rcases Nat.lt_or_ge n 16 with hn | hn
      · rw [Nat.toDigits_of_lt_base hn] at hc
        cases List.mem_singleton.mp hc
        exact h n hn
      · rw [Nat.toDigits_of_base_le (by decide) hn, List.mem_append, List.mem_singleton] at hc
        rcases hc with hc | rfl
        · exact ih (n / 16) (Nat.div_lt_self (by omega) (by decide)) c hc
        · exact h _ (Nat.mod_lt n (by decide))

theorem forall_mem_hex {p : Char → Prop} (h : ∀ d < 16, p (Nat.digitChar d)) (width n : Nat) :
    ∀ c ∈ (hex width n).toList, p c := by
  intro c hc
  rw [hex, String.toList_ofList, List.mem_append] at hc
  rcases hc with hc | hc
  · rw [List.eq_of_mem_replicate hc]
    exact h 0 (by decide)
  · exact forall_mem_toDigits h n c hc

theorem forall_mem_offset {p : Char → Prop} (h : ∀ d < 16, p (Nat.digitChar d)) (hx : p 'x') (n : Nat) :
    ∀ c ∈ (offset n).toList, p c := by
  intro c hc
  rw [offset, String.toList_append, List.mem_append] at hc
  rcases hc with hc | hc
  · have hsign : c = '0' ∨ c = 'x' := by simpa using hc
    rcases hsign with rfl | rfl
    · exact h 0 (by decide)
    · exact hx
  · exact forall_mem_hex h 4 n c hc

def digitValue (c : Char) : Nat := if c.toNat ≤ '9'.toNat then c.toNat - '0'.toNat else c.toNat - 'a'.toNat + 10

def valueOf (cs : List Char) : Nat := cs.foldl (fun n c => 16 * n + digitValue c) 0

theorem digitValue_digitChar : ∀ d < 16, digitValue (Nat.digitChar d) = d := by decide

theorem valueOf_toDigits (n : Nat) : valueOf (Nat.toDigits 16 n) = n := by
  induction n using Nat.strong_induction_on with
  | h n ih =>
      rcases Nat.lt_or_ge n 16 with hn | hn
      · rw [Nat.toDigits_of_lt_base hn]
        change 16 * 0 + digitValue n.digitChar = n
        rw [digitValue_digitChar n hn, Nat.mul_zero, Nat.zero_add]
      · have hfront := ih (n / 16) (Nat.div_lt_self (by omega) (by decide))
        rw [valueOf] at hfront
        rw [Nat.toDigits_of_base_le (by decide) hn, valueOf, List.foldl_append, List.foldl_cons, List.foldl_nil, hfront,
          digitValue_digitChar _ (Nat.mod_lt n (by decide))]
        exact Nat.div_add_mod n 16

theorem valueOf_hex (width n : Nat) : valueOf (hex width n).toList = n := by
  have hzeros (k : Nat) : (List.replicate k '0').foldl (fun n c => 16 * n + digitValue c) 0 = 0 := by
    induction k with
    | zero => rfl
    | succ k ih => exact ih
  rw [hex, String.toList_ofList, valueOf, List.foldl_append, hzeros]
  exact valueOf_toDigits n

theorem offset_injective : Function.Injective offset := by
  intro m n h
  have hlist : (hex 4 m).toList = (hex 4 n).toList := by
    have htext := congrArg String.toList h
    rw [offset, offset, String.toList_append, String.toList_append] at htext
    exact List.append_cancel_left htext
  rw [← valueOf_hex 4 m, hlist, valueOf_hex]

end JavaLift.Text
