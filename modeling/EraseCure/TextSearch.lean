import Mathlib.Data.List.Chain
import Mathlib.Data.List.Infix

/-!
# First occurrences and labelled texts

A search returns the text from the first occurrence of a key on, as a pointer
into a buffer does. A labelled text writes labels and contents alternately.
When the labels are apart from the key and the contents avoid its delimiter,
the first occurrence can only be found in a label.
-/

set_option autoImplicit false

namespace EraseCure.TextSearch

variable {α ι : Type*}

/-- Labels and contents alternately, in the order of an index list. -/
def spell (label text : ι → List α) : List ι → List α
  | [] => []
  | f::fs => label f++text f++spell label text fs

theorem spell_append (label text : ι → List α) (fs gs : List ι) :
    spell label text (fs++gs) = spell label text fs++spell label text gs := by
  induction fs with
  | nil => rfl
  | cons f fs ih => simp [spell, ih]

theorem spell_congr (label text text' : ι → List α) (fs : List ι)
    (h : ∀ f ∈ fs, text f = text' f) : spell label text fs = spell label text' fs := by
  induction fs with
  | nil => rfl
  | cons f fs ih =>
    rw [spell, spell, h f (by simp), ih (fun g hg => h g (by simp [hg]))]

theorem mem_spell (label text : ι → List α) (fs : List ι) (c : α) :
    c ∈ spell label text fs ↔ ∃ f ∈ fs, c ∈ label f ∨ c ∈ text f := by
  induction fs with
  | nil => simp [spell]
  | cons f fs ih => simp [spell, ih, or_assoc]

def Apart (s key : List α) : Prop := ¬ s <+: key ∧ ¬ key <+: s

theorem apart_append (s key r : List α) (h : Apart s key) : ¬ key <+: s++r := by
  intro hk
  rcases List.prefix_or_prefix_of_prefix hk (List.prefix_append s r) with hs | hs
  · exact h.2 hs
  · exact h.1 hs

theorem delimited_begins (q : α) (a b x y : List α) (ha : q ∉ a) (hb : q ∉ b)
    (h : a++q::x <+: b++q::y) : a = b ∧ x <+: y := by
  induction a generalizing b with
  | nil =>
    cases b with
    | nil => exact ⟨rfl, (List.cons_prefix_cons.mp h).2⟩
    | cons d b =>
      have hd := (List.cons_prefix_cons.mp h).1
      simp [hd] at hb
  | cons c a ih =>
    cases b with
    | nil =>
      have hc := (List.cons_prefix_cons.mp h).1
      simp [hc] at ha
    | cons d b =>
      obtain ⟨hcd, ht⟩ := List.cons_prefix_cons.mp h
      obtain ⟨hab, hxy⟩ := ih b (fun hq => ha (by simp [hq])) (fun hq => hb (by simp [hq])) ht
      exact ⟨by rw [hcd, hab], hxy⟩

/-- The first occurrence of a key that holds its first character only once ends
a text without the key. -/
theorem delimited_cut (q : α) (body x y r s : List α) (hb : q ∉ body)
    (hx : ¬ q::body <:+: x) (hy : ¬ q::body <:+: y)
    (h : x++(q::body++r) = y++(q::body++s)) : x = y ∧ r = s := by
  have hkey : ∀ t u v : List α, q::body++u = t++(q::body++v) → ¬ q::body <:+: t → t = [] := by
    intro t u v he ht
    rcases List.append_eq_append_iff.mp he with ⟨w, rfl, _⟩ | ⟨w, hw, hv⟩
    · exact absurd (List.prefix_append _ w).isInfix ht
    · cases t with
      | nil => rfl
      | cons c t =>
        rw [List.cons_append] at hw
        obtain ⟨rfl, hbody⟩ := List.cons.inj hw
        cases w with
        | nil =>
          rw [List.append_nil] at hbody
          exact absurd (hbody ▸ List.infix_refl _) ht
        | cons d w =>
          obtain ⟨rfl, _⟩ := List.cons.inj hv
          exact absurd (by simp [hbody]) hb
  rcases List.append_eq_append_iff.mp h with ⟨t, rfl, ht⟩ | ⟨t, rfl, ht⟩
  · obtain rfl := hkey t r s ht (fun hi => hy (List.infix_append_of_infix_right hi))
    exact ⟨by simp, List.append_cancel_left ht⟩
  · obtain rfl := hkey t s r ht (fun hi => hx (List.infix_append_of_infix_right hi))
    exact ⟨by simp, (List.append_cancel_left ht).symm⟩

/-- No content holds the label that follows it. -/
def Separated (label text : ι → List α) (fs : List ι) : Prop :=
  fs.IsChain (fun f g => ¬ label g <:+: text f)

theorem spell_separated (q : α) (label text text' : ι → List α) (fs : List ι)
    (hq : ∀ f ∈ fs.tail, ∃ body, label f = q::body ∧ q ∉ body)
    (ht : Separated label text fs) (ht' : Separated label text' fs)
    (h : spell label text fs = spell label text' fs) : ∀ f ∈ fs, text f = text' f := by
  induction fs with
  | nil => simp
  | cons f fs ih =>
    cases fs with
    | nil => simpa [spell] using h
    | cons g fs =>
      obtain ⟨body, hg, hb⟩ := hq g (by simp)
      obtain ⟨hf, ht⟩ := List.isChain_cons_cons.mp ht
      obtain ⟨hf', ht'⟩ := List.isChain_cons_cons.mp ht'
      rw [hg] at hf hf'
      have hcut := delimited_cut q body (text f) (text' f) (text g++spell label text fs)
        (text' g++spell label text' fs) hb hf hf' (by simpa [spell, hg] using h)
      have hrest := ih (fun k hk => hq k (by simp [List.mem_of_mem_tail hk])) ht ht'
        (by simp [spell, hcut.2])
      intro k hk
      rcases List.mem_cons.mp hk with rfl | hk
      · exact hcut.1
      · exact hrest k hk

/-- No occurrence of the key `q body q rest` begins in a label, whatever text
without `q` stands between it and the next one. -/
def Clears (q : α) (body rest label next : List α) : Prop :=
  ∀ s ∈ label.tails, s = [] ∨ Apart s (q::body++q::rest) ∨
    (s = [q] ∧ next.head? = some q ∧ Apart next.tail rest)

section Search
variable [DecidableEq α]

instance (s key : List α) : Decidable (Apart s key) :=
  inferInstanceAs (Decidable (_ ∧ _))

instance (q : α) (body rest label next : List α) :
    Decidable (Clears q body rest label next) :=
  inferInstanceAs (Decidable (∀ s ∈ label.tails, _))

instance (label text : ι → List α) (fs : List ι) : Decidable (Separated label text fs) :=
  inferInstanceAs (Decidable (List.IsChain _ fs))

def search (key : List α) : List α → Option (List α)
  | [] => if key = [] then some [] else none
  | c::t => if key.isPrefixOf (c::t) then some (c::t) else search key t

theorem search_begins (key t : List α) (h : key <+: t) : search key t = some t := by
  cases t with
  | nil => simp [search, List.prefix_nil.mp h]
  | cons c t => simp [search, List.isPrefixOf_iff_prefix.mpr h]

theorem search_step (key : List α) (c : α) (t : List α) (h : ¬ key <+: c::t) :
    search key (c::t) = search key t := by
  have hf : key.isPrefixOf (c::t) = false := by
    simpa [← List.isPrefixOf_iff_prefix] using h
  simp [search, hf]

theorem search_none_iff (key t : List α) : search key t = none ↔ ¬ key <:+: t := by
  induction t with
  | nil => simp [search]
  | cons c t ih =>
    by_cases h : key <+: c::t
    · simp [search_begins key _ h, h.isInfix]
    · rw [search_step key c t h, ih, List.infix_cons_iff]
      simp [h]

theorem search_some (key t u : List α) (h : search key t = some u) :
    key <+: u ∧ u <:+ t := by
  induction t with
  | nil =>
    by_cases hk : key = [] <;> simp [search, hk] at h
    simp [hk, h]
  | cons c t ih =>
    by_cases hp : key <+: c::t
    · rw [search_begins key _ hp] at h
      obtain rfl := Option.some.inj h
      exact ⟨hp, List.suffix_refl _⟩
    · rw [search_step key c t hp] at h
      obtain ⟨hk, hu⟩ := ih h
      exact ⟨hk, hu.trans (List.suffix_cons c t)⟩

theorem search_skip (key p r : List α)
    (h : ∀ s, s ≠ [] → s <:+ p → ¬ key <+: s++r) : search key (p++r) = search key r := by
  induction p with
  | nil => rfl
  | cons c p ih =>
    have hc : ¬ key <+: (c::p)++r := h (c::p) (by simp) (List.suffix_refl _)
    rw [List.cons_append, search_step key c (p++r) (by simpa using hc)]
    exact ih (fun s hs hp => h s hs (hp.trans (List.suffix_cons c p)))

theorem search_append (key t u r : List α) (h : search key t = some u) :
    search key (t++r) = some (u++r) := by
  induction t with
  | nil =>
    obtain ⟨hk, hu⟩ := search_some key [] u h
    obtain rfl := List.suffix_nil.mp hu
    exact search_begins key r (by simp [List.prefix_nil.mp hk])
  | cons c t ih =>
    by_cases hp : key <+: c::t
    · rw [search_begins key _ hp] at h
      obtain rfl := Option.some.inj h
      exact search_begins key _ (hp.trans (List.prefix_append _ _))
    · rw [search_step key c t hp] at h
      have hlen : key.length ≤ (c::t).length := by
        obtain ⟨hk, hu⟩ := search_some key t u h
        have := hk.length_le.trans hu.length_le
        simp only [List.length_cons]
        omega
      have hq : ¬ key <+: (c::t)++r := fun hq =>
        hp (List.prefix_of_prefix_length_le hq (List.prefix_append _ _) hlen)
      rw [List.cons_append, search_step key c (t++r) (by simpa using hq), ih h]

theorem search_other (key a w w' : List α) (h : search key (a++(key++w)) = some (key++w)) :
    search key (a++(key++w')) = some (key++w') := by
  have hkey : search key (a++key) = some key := by
    cases hs : search key (a++key) with
    | none => exact absurd (List.infix_append' a key []) (by
        simpa using (search_none_iff key (a++key)).mp hs)
    | some u =>
      have hu := search_append key (a++key) u w hs
      rw [List.append_assoc, h, Option.some.injEq] at hu
      rw [List.append_cancel_right hu]
  have hw := search_append key (a++key) key w' hkey
  rwa [List.append_assoc] at hw

/-- A text that is cut and goes on with a character foreign to the key. The search
finds the first occurrence unless the cut is before its end. -/
theorem search_cut (key a w rest : List α) (h : search key (a++(key++w)) = some (key++w))
    (hrest : ∀ c ∈ rest.head?, c ∉ key) (k : ℕ) :
    search key ((a++(key++w)).take k++rest) =
      if k < (a++key).length then search key rest
      else some (key++(w.take (k-(a++key).length)++rest)) := by
  rw [← List.append_assoc a key w]
  by_cases hk : k < (a++key).length
  · rw [if_pos hk, List.take_append_of_le_length hk.le]
    have hnone : ¬ key <:+: (a++key).take k := by
      intro hin
      cases hs : search key ((a++key).take k) with
      | none => exact (search_none_iff key _).mp hs hin
      | some u =>
        have hu := search_append key _ u ((a++key).drop k) hs
        have hkey := search_other key a w [] h
        rw [List.append_nil] at hkey
        rw [List.take_append_drop, hkey, Option.some.injEq] at hu
        have hlen := (search_some key _ u hs).1.length_le
        have hsum := congrArg List.length hu
        rw [List.length_append, List.length_drop] at hsum
        omega
    apply search_skip
    intro s hs hsuf hp
    rcases List.prefix_or_prefix_of_prefix hp (List.prefix_append s rest) with hin | ⟨r, rfl⟩
    · exact hnone (hin.isInfix.trans hsuf.isInfix)
    · rw [List.prefix_append_right_inj] at hp
      cases r with
      | nil => exact hnone (by simpa using hsuf.isInfix)
      | cons c r =>
        obtain ⟨u, rfl⟩ := hp
        exact hrest c rfl (by simp)
  · rw [if_neg hk, List.take_append, List.take_of_length_le (by omega), List.append_assoc,
      List.append_assoc]
    exact search_other key a w _ h

/-- A key that does not occur again after its first occurrence is on one side
of every split of the text only. -/
theorem sole_occurrence (key t u x y : List α) (hs : search key t = some u)
    (hn : ¬ key <:+: u.drop key.length) (ht : t = x++y) (hx : key <:+: x) :
    ¬ key <:+: y := by
  cases hf : search key x with
  | none => exact absurd hx ((search_none_iff key x).mp hf)
  | some v =>
    have hv := search_append key x v y hf
    rw [← ht, hs] at hv
    obtain rfl := Option.some.inj hv
    have hk := (search_some key x v hf).1.length_le
    rw [List.drop_append_of_le_length hk] at hn
    exact fun hy => hn (List.infix_append_of_infix_right hy)

theorem search_label (q : α) (body rest label text next more : List α) (hb : q ∉ body)
    (ht : q ∉ text) (hc : Clears q body rest label next) :
    search (q::body++q::rest) (label++text++(next++more)) =
      search (q::body++q::rest) (next++more) := by
  apply search_skip
  intro s hs hsuf hk
  obtain ⟨a, ha⟩ := hsuf
  rcases List.append_eq_append_iff.mp ha with ⟨b, hb1, hb2⟩ | ⟨b, hb1, hb2⟩
  · subst hb2
    rcases hc b ((List.mem_tails _ _).mpr ⟨a, hb1.symm⟩) with rfl | hap | ⟨rfl, hq, hn⟩
    · cases text with
      | nil => simp at hs
      | cons d text =>
        have hd := (List.cons_prefix_cons.mp (by simpa using hk)).1
        simp [hd] at ht
    · exact apart_append b _ (text++(next++more)) hap (by simpa using hk)
    · cases next with
      | nil => simp at hq
      | cons d next =>
        obtain rfl : d = q := by simpa using hq
        have hk' : body++d::rest <+: text++d::(next++more) := by simpa using hk
        exact apart_append next rest more hn (delimited_begins d body text rest _ hb ht hk').2
  · cases s with
    | nil => exact hs rfl
    | cons d s =>
      have hd := (List.cons_prefix_cons.mp (by simpa using hk)).1
      have : d ∈ text := by simp [hb2]
      exact ht (hd ▸ this)

/-- The search runs past any number of labelled contents that clear the key. -/
theorem search_spell (q : α) (body rest : List α) (label text : ι → List α)
    (fs : List ι) (next more : List α) (hb : q ∉ body) (ht : ∀ f ∈ fs, q ∉ text f)
    (hc : List.IsChain (Clears q body rest) (fs.map label++[next])) :
    search (q::body++q::rest) (spell label text fs++(next++more)) =
      search (q::body++q::rest) (next++more) := by
  induction fs with
  | nil => rfl
  | cons f fs ih =>
    have ht' : ∀ g ∈ fs, q ∉ text g := fun g hg => ht g (by simp [hg])
    have hih := ih ht' hc.tail
    cases fs with
    | nil =>
      simp only [List.map_cons, List.map_nil, List.cons_append, List.nil_append,
        List.isChain_cons_cons] at hc
      simpa [spell] using search_label q body rest _ _ next more hb (ht f (by simp)) hc.1
    | cons g fs =>
      simp only [List.map_cons, List.cons_append, List.isChain_cons_cons] at hc
      rw [← hih]
      have := search_label q body rest (label f) (text f) (label g)
        (text g++spell label text fs++(next++more)) hb (ht f (by simp)) hc.1
      simpa [spell] using this

end Search

end EraseCure.TextSearch
