import EraseCure.CText

/-!
# Paths and file names

A path is cut into its components at the slashes. Appending a slash and a file
name appends one component. Where a path lexically leads is what remains once
empty components and single dots are dropped and double dots take one back.
-/

set_option autoImplicit false

namespace EraseCure.PathNames
open EraseCure.CText

def components (path : Text) : List Text := path.splitOn '/'

/-- A name that can stand in a directory beside the two dots. -/
def FileName (name : Text) : Prop :=
  name ≠ [] ∧ '/' ∉ name ∧ name ≠ ['.'] ∧ name ≠ ['.', '.']

instance (name : Text) : Decidable (FileName name) := inferInstanceAs (Decidable (_ ∧ _))

def child (dir name : Text) : Text := dir++ '/'::name

def descendant (dir : Text) (names : List Text) : Text := names.foldl child dir

theorem components_ne_nil (path : Text) : components path ≠ [] := List.splitOn_ne_nil '/' path

theorem components_child (dir name : Text) (h : '/' ∉ name) :
    components (child dir name) = components dir++[name] := by
  rw [components, child, List.splitOn_append_cons_self, List.splitOn_eq_singleton h, components]

theorem components_descendant (dir : Text) (names : List Text) (h : ∀ name ∈ names, '/' ∉ name) :
    components (descendant dir names) = components dir++names := by
  induction names generalizing dir with
  | nil => exact (List.append_nil _).symm
  | cons name rest ih =>
    rw [descendant, List.foldl_cons, ← descendant,
      ih _ (fun n hn => h n (List.mem_cons_of_mem _ hn)),
      components_child _ _ (h name List.mem_cons_self), List.append_assoc]
    rfl

theorem descendant_concat (dir : Text) (names : List Text) (name : Text) :
    descendant dir (names++[name]) = child (descendant dir names) name :=
  List.foldl_concat _ _ _ _

theorem descendant_injective (dir : Text) (names names' : List Text)
    (h : ∀ name ∈ names, '/' ∉ name) (h' : ∀ name ∈ names', '/' ∉ name)
    (heq : descendant dir names = descendant dir names') : names = names' := by
  have := components_descendant dir names h
  rw [heq, components_descendant dir names' h'] at this
  exact (List.append_cancel_left this).symm

theorem descendant_length (dir : Text) (names rest : List Text) :
    (descendant dir names).length ≤ (descendant dir (names++rest)).length := by
  induction rest generalizing names with
  | nil => rw [List.append_nil]
  | cons name rest ih =>
    have hle := ih (names++[name])
    rw [List.append_assoc] at hle
    apply le_trans _ hle
    rw [descendant_concat, child, List.length_append]
    exact Nat.le_add_right _ _

def leadStep (place : List Text) (name : Text) : List Text :=
  if name = [] ∨ name = ['.'] then place
  else if name = ['.', '.'] then place.dropLast
  else place++[name]

def leads (path : Text) : List Text := (components path).foldl leadStep []

example : leads "//usr/./bin/../lib/".toList = ["usr".toList, "lib".toList] := by decide

end EraseCure.PathNames
