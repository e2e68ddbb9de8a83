import Mathlib.Data.List.Basic

/-!
# Eager promises

An assignment to an attribute in a nested block is announced by the statements
around it: each holds a promise for the attribute from the moment it is emitted
until it executes. Which promises a statement is responsible for is computed
when it is normalized, from the statements and expressions in it.

The promises come from assignments, and assignments stand in blocks. A
constructor would pass on those of the implementations it selects, but its sub
constructors hold none: when they are normalized, the implementations are not.
So no expression has promises (`ExpressionStatement.getAllEagerPromises_eq_nil`),
and of the statements that can hold them only `If` and `For` do.
-/

namespace Inmanta

/-- The attribute of an instance that is assigned to. -/
structure StaticEagerPromise where
  /-- The first variable of the reference to the instance. -/
  rootVariable : String
  path : List String
  attributeName : String
  deriving DecidableEq

/-- Selects an implementation for the instances of a type. -/
structure SubConstructor where
  instanceType : String
  implements : ℕ

namespace SubConstructor

/-- The implementations have not been normalized yet. -/
def ownEagerPromises (_ : SubConstructor) : List StaticEagerPromise := []

def getAllEagerPromises (s : SubConstructor) : List StaticEagerPromise := s.ownEagerPromises

end SubConstructor

inductive LazyOperator where
  | and
  | or

/-- `_is_final`: the first operand decides. -/
def LazyOperator.isFinal : LazyOperator → Bool → Bool
  | .and, result => !result
  | .or, result => result

/-- Expressions, by what they do with the promises of their parts. -/
inductive ExpressionStatement where
  /-- References, literals and whatever else has no promises of its own and
  passes on none. -/
  | basic
  /-- Operators, list literals, calls. -/
  | referenceStatement (children : List ExpressionStatement)
  | lazyBooleanOperator (op : LazyOperator) (op1 op2 : ExpressionStatement)
  | conditionalExpression (condition ifExpression elseExpression : ExpressionStatement)
  | constructor (subConstructors : List SubConstructor)
      (attributes kwargs : List ExpressionStatement)
  | wrappedKwargs (dictionary : ExpressionStatement)

namespace ExpressionStatement

mutual

def getAllEagerPromises : ExpressionStatement → List StaticEagerPromise
  | basic => []
  | referenceStatement children => allOf children
  | lazyBooleanOperator _ op1 op2 => op2.getAllEagerPromises ++ op1.getAllEagerPromises
  | conditionalExpression condition ifExpression elseExpression =>
      (ifExpression.getAllEagerPromises ++ elseExpression.getAllEagerPromises) ++
        condition.getAllEagerPromises
  | constructor subConstructors attributes kwargs =>
      subConstructors.flatMap SubConstructor.getAllEagerPromises ++
        (allOf attributes ++ allOf kwargs)
  | wrappedKwargs dictionary => dictionary.getAllEagerPromises

def allOf : List ExpressionStatement → List StaticEagerPromise
  | [] => []
  | e :: es => e.getAllEagerPromises ++ allOf es

end

/-- The promises that the expression is responsible for itself. -/
def ownEagerPromises : ExpressionStatement → List StaticEagerPromise
  | basic => []
  | referenceStatement _ => []
  | lazyBooleanOperator _ _ op2 => op2.getAllEagerPromises
  | conditionalExpression _ ifExpression elseExpression =>
      ifExpression.getAllEagerPromises ++ elseExpression.getAllEagerPromises
  | constructor subConstructors _ _ => subConstructors.flatMap SubConstructor.getAllEagerPromises
  | wrappedKwargs _ => []

theorem subConstructors_eq_nil (l : List SubConstructor) :
    l.flatMap SubConstructor.getAllEagerPromises = [] :=
  List.flatMap_eq_nil_iff.mpr fun _ _ => rfl

mutual

/-- No expression has promises. -/
theorem getAllEagerPromises_eq_nil : ∀ e : ExpressionStatement, e.getAllEagerPromises = []
  | basic => rfl
  | referenceStatement children => allOf_eq_nil children
  | lazyBooleanOperator _ op1 op2 => by
      rw [getAllEagerPromises, getAllEagerPromises_eq_nil op1, getAllEagerPromises_eq_nil op2,
        List.append_nil]
  | conditionalExpression condition ifExpression elseExpression => by
      rw [getAllEagerPromises, getAllEagerPromises_eq_nil condition,
        getAllEagerPromises_eq_nil ifExpression, getAllEagerPromises_eq_nil elseExpression,
        List.append_nil, List.append_nil]
  | constructor subConstructors attributes kwargs => by
      rw [getAllEagerPromises, subConstructors_eq_nil, allOf_eq_nil attributes,
        allOf_eq_nil kwargs, List.append_nil, List.append_nil]
  | wrappedKwargs dictionary => getAllEagerPromises_eq_nil dictionary

theorem allOf_eq_nil : ∀ es : List ExpressionStatement, allOf es = []
  | [] => rfl
  | e :: es => by
      rw [allOf, getAllEagerPromises_eq_nil e, allOf_eq_nil es, List.append_nil]

end

theorem ownEagerPromises_eq_nil (e : ExpressionStatement) : e.ownEagerPromises = [] := by
  cases e with
  | basic => rfl
  | referenceStatement children => rfl
  | lazyBooleanOperator op op1 op2 => exact getAllEagerPromises_eq_nil op2
  | conditionalExpression condition ifExpression elseExpression =>
      rw [ownEagerPromises, getAllEagerPromises_eq_nil, getAllEagerPromises_eq_nil,
        List.append_nil]
  | constructor subConstructors attributes kwargs =>
      exact subConstructors_eq_nil subConstructors
  | wrappedKwargs dictionary => rfl

end ExpressionStatement

mutual

inductive Statement where
  | expression (e : ExpressionStatement)
  /-- An assignment to a variable, for one. -/
  | assign (lhs : Option ExpressionStatement) (rhs : ExpressionStatement)
  | setAttribute (lhs : Option ExpressionStatement) (rhs : ExpressionStatement)
      (promise : StaticEagerPromise)
  | ifStatement (condition : ExpressionStatement) (ifBranch elseBranch : BasicBlock)
  | forLoop (base : ExpressionStatement) (block : BasicBlock)
  | subConstructor (s : SubConstructor)

inductive BasicBlock where
  | mk (declared : List String) (stmts : List Statement)

end

mutual

def Statement.getAllEagerPromises : Statement → List StaticEagerPromise
  | .expression e => e.getAllEagerPromises
  | .assign lhs rhs =>
      ((lhs.map ExpressionStatement.getAllEagerPromises).getD []) ++ rhs.getAllEagerPromises
  | .setAttribute lhs rhs promise =>
      ((lhs.map ExpressionStatement.getAllEagerPromises).getD []) ++ rhs.getAllEagerPromises ++
        [promise]
  | .ifStatement condition ifBranch elseBranch =>
      (ifBranch.getEagerPromises ++ elseBranch.getEagerPromises) ++ condition.getAllEagerPromises
  | .forLoop base block => block.getEagerPromises ++ base.getAllEagerPromises
  | .subConstructor s => s.getAllEagerPromises

/-- The promises of the statements of a block, but for its own variables. -/
def BasicBlock.getEagerPromises : BasicBlock → List StaticEagerPromise
  | .mk declared stmts => (promisesOf stmts).filter fun p => p.rootVariable ∉ declared

def promisesOf : List Statement → List StaticEagerPromise
  | [] => []
  | s :: stmts => s.getAllEagerPromises ++ promisesOf stmts

end

/-- The promises that the statement is responsible for itself. -/
def Statement.ownEagerPromises : Statement → List StaticEagerPromise
  | .expression e => e.ownEagerPromises
  | .assign _ _ => []
  | .setAttribute _ _ _ => []
  | .ifStatement _ ifBranch elseBranch => ifBranch.getEagerPromises ++ elseBranch.getEagerPromises
  | .forLoop _ block => block.getEagerPromises
  | .subConstructor s => s.ownEagerPromises

end Inmanta
