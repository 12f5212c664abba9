import Conform.Value.Equality

namespace Conform.Value

mutual

theorem beq_comm : (a b : Value) → beq a b = beq b a
  | .list as, b => by cases b <;> simp [beq, beqItems_comm as]
  | .tuple as, b => by cases b <;> simp [beq, beqItems_comm as]
  | .keyword as, b => by cases b <;> simp [beq, beqFields_comm as]
  | .map as, b => by cases b <;> simp [beq, beqPairs_comm as]
  | .struct n as, b => by cases b <;> simp [beq, beqFields_comm as, BEq.comm (a := n)]
  | .float x, b => by cases b <;> simp [beq, Number.Binary64.beq_comm x]
  | .nil, b => by cases b <;> simp [beq]
  | .bool x, b => by cases b <;> simp [beq, BEq.comm (a := x)]
  | .integer x, b => by cases b <;> simp [beq, BEq.comm (a := x)]
  | .atom x, b => by cases b <;> simp [beq, BEq.comm (a := x)]
  | .string x, b => by cases b <;> simp [beq, BEq.comm (a := x)]
  | .pid x, b => by cases b <;> simp [beq, BEq.comm (a := x)]
  | .ref x, b => by cases b <;> simp [beq, BEq.comm (a := x)]
  | .function x, b => by cases b <;> simp [beq, BEq.comm (a := x)]

theorem beqItems_comm : (as bs : List Value) → beqItems as bs = beqItems bs as
  | [], bs => by cases bs <;> simp [beqItems]
  | a :: as, [] => by simp [beqItems]
  | a :: as, b :: bs => by simp [beqItems, beq_comm a, beqItems_comm as]

theorem beqFields_comm : (as bs : List (String × Value)) → beqFields as bs = beqFields bs as
  | [], bs => by cases bs <;> simp [beqFields]
  | _ :: _, [] => by simp [beqFields]
  | (k, a) :: as, (l, b) :: bs => by
    simp [beqFields, beq_comm a, beqFields_comm as, BEq.comm (a := k)]

theorem beqPairs_comm : (as bs : List (Value × Value)) → beqPairs as bs = beqPairs bs as
  | [], bs => by cases bs <;> simp [beqPairs]
  | _ :: _, [] => by simp [beqPairs]
  | (k, a) :: as, (l, b) :: bs => by
    simp [beqPairs, beq_comm k, beq_comm a, beqPairs_comm as]

end

mutual

theorem beq_trans : (a : Value) → {b c : Value} → beq a b = true → beq b c = true → beq a c = true
  | .list as, b, c, h, k => by
    cases b <;> simp only [beq, Bool.false_eq_true] at h
    cases c <;> simp only [beq, Bool.false_eq_true] at k
    simpa only [beq] using beqItems_trans as h k
  | .tuple as, b, c, h, k => by
    cases b <;> simp only [beq, Bool.false_eq_true] at h
    cases c <;> simp only [beq, Bool.false_eq_true] at k
    simpa only [beq] using beqItems_trans as h k
  | .keyword as, b, c, h, k => by
    cases b <;> simp only [beq, Bool.false_eq_true] at h
    cases c <;> simp only [beq, Bool.false_eq_true] at k
    simpa only [beq] using beqFields_trans as h k
  | .map as, b, c, h, k => by
    cases b <;> simp only [beq, Bool.false_eq_true] at h
    cases c <;> simp only [beq, Bool.false_eq_true] at k
    simpa only [beq] using beqPairs_trans as h k
  | .struct n as, b, c, h, k => by
    cases b <;> simp only [beq, Bool.false_eq_true, Bool.and_eq_true] at h
    cases c <;> simp only [beq, Bool.false_eq_true, Bool.and_eq_true] at k
    simp only [beq, Bool.and_eq_true]
    exact ⟨BEq.trans h.1 k.1, beqFields_trans as h.2 k.2⟩
  | .float x, b, c, h, k => by
    cases b <;> simp only [beq, Bool.false_eq_true] at h
    cases c <;> simp only [beq, Bool.false_eq_true] at k
    simpa only [beq] using Number.Binary64.beq_trans h k
  | .nil, b, c, h, k => by
    cases b <;> simp only [beq, Bool.false_eq_true] at h
    exact k
  | .bool x, b, c, h, k => by
    cases b <;> simp only [beq, Bool.false_eq_true, beq_iff_eq] at h
    exact h ▸ k
  | .integer x, b, c, h, k => by
    cases b <;> simp only [beq, Bool.false_eq_true, beq_iff_eq] at h
    exact h ▸ k
  | .atom x, b, c, h, k => by
    cases b <;> simp only [beq, Bool.false_eq_true, beq_iff_eq] at h
    exact h ▸ k
  | .string x, b, c, h, k => by
    cases b <;> simp only [beq, Bool.false_eq_true, beq_iff_eq] at h
    exact h ▸ k
  | .pid x, b, c, h, k => by
    cases b <;> simp only [beq, Bool.false_eq_true, beq_iff_eq] at h
    exact h ▸ k
  | .ref x, b, c, h, k => by
    cases b <;> simp only [beq, Bool.false_eq_true, beq_iff_eq] at h
    exact h ▸ k
  | .function x, b, c, h, k => by
    cases b <;> simp only [beq, Bool.false_eq_true, beq_iff_eq] at h
    exact h ▸ k

theorem beqItems_trans : (as : List Value) → {bs cs : List Value} →
    beqItems as bs = true → beqItems bs cs = true → beqItems as cs = true
  | [], [], _, _, k => k
  | a :: as, b :: bs, c :: cs, h, k => by
    simp only [beqItems, Bool.and_eq_true] at h k ⊢
    exact ⟨beq_trans a h.1 k.1, beqItems_trans as h.2 k.2⟩
  | _ :: _, _ :: _, [], _, k => by simp [beqItems] at k
  | [], _ :: _, _, h, _ => by simp [beqItems] at h
  | _ :: _, [], _, h, _ => by simp [beqItems] at h

theorem beqFields_trans : (as : List (String × Value)) → {bs cs : List (String × Value)} →
    beqFields as bs = true → beqFields bs cs = true → beqFields as cs = true
  | [], [], _, _, k => k
  | (_, a) :: as, (_, _) :: bs, (_, _) :: cs, h, k => by
    simp only [beqFields, Bool.and_eq_true] at h k ⊢
    exact ⟨⟨BEq.trans h.1.1 k.1.1, beq_trans a h.1.2 k.1.2⟩, beqFields_trans as h.2 k.2⟩
  | _ :: _, _ :: _, [], _, k => by simp [beqFields] at k
  | [], _ :: _, _, h, _ => by simp [beqFields] at h
  | _ :: _, [], _, h, _ => by simp [beqFields] at h

theorem beqPairs_trans : (as : List (Value × Value)) → {bs cs : List (Value × Value)} →
    beqPairs as bs = true → beqPairs bs cs = true → beqPairs as cs = true
  | [], [], _, _, k => k
  | (x, a) :: as, (_, _) :: bs, (_, _) :: cs, h, k => by
    simp only [beqPairs, Bool.and_eq_true] at h k ⊢
    exact ⟨⟨beq_trans x h.1.1 k.1.1, beq_trans a h.1.2 k.1.2⟩, beqPairs_trans as h.2 k.2⟩
  | _ :: _, _ :: _, [], _, k => by simp [beqPairs] at k
  | [], _ :: _, _, h, _ => by simp [beqPairs] at h
  | _ :: _, [], _, h, _ => by simp [beqPairs] at h

end

/-- Equality of values is symmetric and transitive. It is not reflexive, because of floats that are
not numbers. -/
instance : PartialEquivBEq Value where
  symm {a b} h := by rw [← h]; exact beq_comm b a
  trans {a _ _} h k := beq_trans a h k

end Conform.Value
