import SurfaceLanguage.Proofs.Tree.Comparison
import SurfaceLanguage.Tree.Printer

/-!
# Equality of trees is a partial equivalence

A tree that holds a NaN is outside of equality: it equals nothing, itself included. On the
other trees equality is an equivalence, and it is finer than the text except for the sign of a
zero. All of it follows from one fact: equality is that of the trees without signs of zeros,
for trees whose numbers are no NaN.
-/
namespace SurfaceLanguage.Tree
open Number Binary64

/-- What a comparison keeps of an equivalence when numbers are compared as numbers. -/
structure EqualityLaws {T : Type} [BEq T] (floats : T → List Binary64) (print : T → String) :
    Prop where
  symm (a b : T) : a == b → b == a
  trans (a b c : T) : a == b → b == c → a == c
  self_iff (a : T) : a == a ↔ ∀ x ∈ floats a, x.isNaN = false
  print_eq (a b : T) : a == b → (∀ x ∈ floats a, x.isZero = false) → print a = print b

/-- A comparison that does not see the signs of zeros and finds no NaN equal. -/
structure ComparesUnsigned {T : Type} [BEq T] (floats : T → List Binary64) (unsigned : T → T) :
    Prop where
  beq_iff (a b : T) : a == b ↔ unsigned a = unsigned b ∧ Numeric (floats a)
  floats_unsigned (a : T) : floats (unsigned a) = (floats a).map dropZeroSign
  unsigned_eq_self (a : T) : (∀ x ∈ floats a, x.dropZeroSign = x) → unsigned a = a

namespace ComparesUnsigned
variable {T : Type} [BEq T] {floats : T → List Binary64} {unsigned : T → T} {a b c : T}

/-- What does not change with the sign of a zero is the same in trees that differ in it only. -/
theorem forall_floats_iff (h : ComparesUnsigned floats unsigned) {p : Binary64 → Bool}
    (hp : ∀ x : Binary64, p x.dropZeroSign = p x) (heq : unsigned a = unsigned b) :
    (∀ x ∈ floats a, p x = false) ↔ ∀ x ∈ floats b, p x = false := by
  have hunsigned (t : T) :
      (∀ x ∈ floats t, p x = false) ↔ ∀ x ∈ floats (unsigned t), p x = false := by
    rw [h.floats_unsigned, List.forall_mem_map]
    simp only [hp]
  rw [hunsigned a, heq, ← hunsigned b]

theorem symm (h : ComparesUnsigned floats unsigned) (hab : a == b) : b == a := by
  obtain ⟨heq, hnumeric⟩ := (h.beq_iff a b).1 hab
  exact (h.beq_iff b a).2 ⟨heq.symm, (h.forall_floats_iff isNaN_dropZeroSign heq).1 hnumeric⟩

theorem trans (h : ComparesUnsigned floats unsigned) (hab : a == b) (hbc : b == c) : a == c := by
  obtain ⟨heq, hnumeric⟩ := (h.beq_iff a b).1 hab
  obtain ⟨heq', -⟩ := (h.beq_iff b c).1 hbc
  exact (h.beq_iff a c).2 ⟨heq.trans heq', hnumeric⟩

theorem self_iff (h : ComparesUnsigned floats unsigned) : a == a ↔ Numeric (floats a) := by
  rw [h.beq_iff]
  exact and_iff_right rfl

/-- Away from zeros, equal trees are one tree. -/
theorem eq_of_beq (h : ComparesUnsigned floats unsigned) (hab : a == b)
    (hzero : ∀ x ∈ floats a, x.isZero = false) : a = b := by
  obtain ⟨heq, -⟩ := (h.beq_iff a b).1 hab
  have hzero' := (h.forall_floats_iff isZero_dropZeroSign heq).1 hzero
  calc a = unsigned a := (h.unsigned_eq_self a fun x hx => dropZeroSign_eq_self (hzero x hx)).symm
    _ = unsigned b := heq
    _ = b := h.unsigned_eq_self b fun x hx => dropZeroSign_eq_self (hzero' x hx)

theorem laws (h : ComparesUnsigned floats unsigned) (print : T → String) :
    EqualityLaws floats print where
  symm _ _ := h.symm
  trans _ _ _ := h.trans
  self_iff _ := h.self_iff
  print_eq _ _ hab hzero := congrArg print (h.eq_of_beq hab hzero)

end ComparesUnsigned

theorem Expr.comparesUnsigned : ComparesUnsigned Expr.floats (Expr.mapFloats dropZeroSign) where
  beq_iff := Expr.equal_iff
  floats_unsigned := Expr.floats_mapFloats dropZeroSign
  unsigned_eq_self := Expr.mapFloats_eq_self

theorem Stmt.comparesUnsigned : ComparesUnsigned Stmt.floats (Stmt.mapFloats dropZeroSign) where
  beq_iff := Stmt.equal_iff
  floats_unsigned := Stmt.floats_mapFloats dropZeroSign
  unsigned_eq_self := Stmt.mapFloats_eq_self

/-- Equality of expressions and of statements is symmetric and transitive, it is reflexive
exactly on trees without a NaN, and equal trees without a zero print alike. -/
theorem equality_laws :
    EqualityLaws Expr.floats Expr.print ∧ EqualityLaws Stmt.floats Stmt.print :=
  ⟨Expr.comparesUnsigned.laws Expr.print, Stmt.comparesUnsigned.laws Stmt.print⟩

/-- A row that begins with a number of these bits. -/
def rowOf (bits : UInt64) : Expr := .array [.floatLit ⟨bits⟩, .floatLit ⟨0x3ff8000000000000⟩]

/-- The number as the condition of a loop and, deeper, as what is returned. -/
def loopOn (bits : UInt64) : Stmt :=
  .whileStmt (rowOf bits) [.ifStmt .thisRef [] (some (.returnStmt (some (rowOf bits))))]

theorem equality_laws_of_zeros :
    (rowOf 0 == rowOf 0x8000000000000000 ∧ rowOf 0x8000000000000000 == rowOf 0) ∧
    (rowOf 0).print ≠ (rowOf 0x8000000000000000).print ∧
    ¬ (rowOf 0x7ff8000000000000 == rowOf 0x7ff8000000000000) ∧
    (rowOf 0x4008000000000000).print =
      (Expr.array [.floatLit ⟨0x4008000000000000⟩, .floatLit ⟨0x3ff8000000000000⟩]).print ∧
    (loopOn 0x8000000000000000 == loopOn 0 ∧ loopOn 0 == loopOn 0x8000000000000000 ∧
      loopOn 0 == loopOn 0) ∧
    ¬ (loopOn 0xfff0000000000001 == loopOn 0xfff0000000000001) := by
  refine ⟨⟨rfl, equality_laws.1.symm (rowOf 0) _ rfl⟩, by decide, ?_, ?_, ⟨rfl, ?_, ?_⟩, ?_⟩
  · rw [equality_laws.1.self_iff]
    decide
  · exact equality_laws.1.print_eq _ _ rfl (by decide)
  · exact equality_laws.2.symm _ _ rfl
  · exact equality_laws.2.trans _ (loopOn 0x8000000000000000) _ rfl rfl
  · rw [equality_laws.2.self_iff]
    decide

end SurfaceLanguage.Tree
