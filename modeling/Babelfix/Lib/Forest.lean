import Mathlib.Data.List.Basic

/-! # Forests laid out flat

An ordered forest, and its nodes in the order a depth-first walk meets them. A flat
layout of that order keeps with each node how many entries it and its descendants take
up, its span: adding the span to a node's place gives the place of its next sibling. -/
namespace Babelfix.Lib

/-- The first tree's root, the trees below it, and the trees after it. -/
inductive Forest (α : Type) where
  | nil
  | node (a : α) (children rest : Forest α)
  deriving DecidableEq, Repr

namespace Forest

variable {α β : Type}

def append : Forest α → Forest α → Forest α
  | nil, g => g
  | node a c r, g => node a c (append r g)

instance : Append (Forest α) := ⟨append⟩

/-- A tree with nothing below its root. -/
def leaf (a : α) : Forest α := node a nil nil

def size : Forest α → Nat
  | nil => 0
  | node _ c r => c.size + 1 + r.size

/-- The nodes in the order of a depth-first walk. -/
def preorder : Forest α → List α
  | nil => []
  | node a c r => a :: (c.preorder ++ r.preorder)

def roots : Forest α → List α
  | nil => []
  | node a _ r => a :: r.roots

def map (f : α → β) : Forest α → Forest β
  | nil => nil
  | node a c r => node (f a) (c.map f) (r.map f)

/-- Each node's span covers it and its descendants. -/
def Fits (span : α → Nat) : Forest α → Prop
  | nil => True
  | node a c r => span a = c.size + 1 ∧ c.Fits span ∧ r.Fits span

@[simp] theorem nil_append (f : Forest α) : nil ++ f = f := rfl

@[simp] theorem node_append (a : α) (c r f : Forest α) : node a c r ++ f = node a c (r ++ f) := rfl

@[simp] theorem append_nil (f : Forest α) : f ++ nil = f := by
  induction f with
  | nil => rfl
  | node a c r _ ih => rw [node_append, ih]

theorem append_assoc (f g h : Forest α) : f ++ g ++ h = f ++ (g ++ h) := by
  induction f with
  | nil => rfl
  | node a c r _ ih => rw [node_append, node_append, node_append, ih]

@[simp] theorem size_nil : (nil : Forest α).size = 0 := rfl

@[simp] theorem size_node (a : α) (c r : Forest α) : (node a c r).size = c.size + 1 + r.size := rfl

theorem size_eq_zero {f : Forest α} : f.size = 0 ↔ f = nil := by
  cases f with
  | nil => simp
  | node a c r => simp

@[simp] theorem size_append (f g : Forest α) : (f ++ g).size = f.size + g.size := by
  induction f with
  | nil => simp
  | node a c r _ ih => simp [ih, Nat.add_assoc]

@[simp] theorem preorder_nil : (nil : Forest α).preorder = [] := rfl

@[simp] theorem preorder_node (a : α) (c r : Forest α) :
    (node a c r).preorder = a :: (c.preorder ++ r.preorder) := rfl

@[simp] theorem preorder_append (f g : Forest α) :
    (f ++ g).preorder = f.preorder ++ g.preorder := by
  induction f with
  | nil => rfl
  | node a c r _ ih => simp [ih]

@[simp] theorem length_preorder (f : Forest α) : f.preorder.length = f.size := by
  induction f with
  | nil => rfl
  | node a c r ihc ihr =>
    simp only [preorder_node, List.length_cons, List.length_append, ihc, ihr, size_node]
    omega

@[simp] theorem roots_nil : (nil : Forest α).roots = [] := rfl

@[simp] theorem roots_node (a : α) (c r : Forest α) : (node a c r).roots = a :: r.roots := rfl

@[simp] theorem roots_append (f g : Forest α) : (f ++ g).roots = f.roots ++ g.roots := by
  induction f with
  | nil => rfl
  | node a c r _ ih => simp [ih]

theorem roots_sublist (f : Forest α) : f.roots.Sublist f.preorder := by
  induction f with
  | nil => exact .slnil
  | node a c r _ ih => exact (ih.trans (List.sublist_append_right _ _)).cons_cons a

@[simp] theorem map_nil (f : α → β) : (nil : Forest α).map f = nil := rfl

@[simp] theorem map_node (f : α → β) (a : α) (c r : Forest α) :
    (node a c r).map f = node (f a) (c.map f) (r.map f) := rfl

@[simp] theorem roots_map (f : α → β) (g : Forest α) : (g.map f).roots = g.roots.map f := by
  induction g with
  | nil => rfl
  | node a c r _ ihr => simp [ihr]

@[simp] theorem fits_append (span : α → Nat) (f g : Forest α) :
    (f ++ g).Fits span ↔ f.Fits span ∧ g.Fits span := by
  induction f with
  | nil => simp [Fits]
  | node a c r _ ih => simp [Fits, ih, and_assoc]

end Forest

end Babelfix.Lib
