import Mathlib.Data.List.Nodup

/-!
Entries in the order in which their keys came first. Keys are told apart by an index only, so an
entry is found under every key that has the index of its own one.
-/

structure Indexed {κ ι : Type} (index : κ → ι) (ν : Type) where
  entries : List (κ × ν)
  nodup : (entries.map (fun e => index e.1)).Nodup

namespace Indexed

variable {κ ι ν : Type} {index : κ → ι}

def empty : Indexed index ν :=
  { entries := [], nodup := List.nodup_nil }

-- Other values under the same keys.
def withValues (m : Indexed index ν) (entries : List (κ × ν))
    (hkeys : entries.map Prod.fst = m.entries.map Prod.fst)
    : Indexed index ν where
  entries := entries
  nodup := by
    have hindices : entries.map (fun e => index e.1) = m.entries.map (fun e => index e.1) := by
      have := congrArg (List.map index) hkeys
      rwa [List.map_map, List.map_map] at this
    rw [hindices]
    apply m.nodup

variable [DecidableEq ι]

def lookup (m : Indexed index ν) (key : κ) : Option ν :=
  (m.entries.find? (fun e => index e.1 = index key)).map Prod.snd

def overwrite (index : κ → ι) (entries : List (κ × ν)) (key : κ) (value : ν) : List (κ × ν) :=
  entries.map (fun e => if index e.1 = index key then (e.1, value) else e)

theorem map_fst_overwrite (entries : List (κ × ν)) (key : κ) (value : ν)
    : (overwrite index entries key value).map Prod.fst = entries.map Prod.fst := by
  unfold overwrite
  rw [List.map_map]
  apply List.map_congr_left
  intro e _
  dsimp only [Function.comp]
  split
  . rfl
  . rfl

def insert (m : Indexed index ν) (key : κ) (value : ν) : Indexed index ν :=
  if h : ∃ e ∈ m.entries, index e.1 = index key then
    m.withValues (overwrite index m.entries key value) (map_fst_overwrite m.entries key value)
  else
    {
      entries := m.entries ++ [(key, value)]
      nodup := by
        rw [List.map_append, List.map_singleton, List.nodup_append]
        refine ⟨m.nodup, by simp, ?_⟩
        intro i hi j hj
        rcases List.mem_map.mp hi with ⟨e, he, rfl⟩
        rw [List.mem_singleton.mp hj]
        intro heq
        apply h ⟨e, he, heq⟩
    }

def erase (m : Indexed index ν) (key : κ) : Indexed index ν where
  entries := m.entries.filter (fun e => index e.1 ≠ index key)
  nodup := m.nodup.sublist (List.filter_sublist.map _)

variable {m : Indexed index ν} {key : κ}

theorem lookup_absent (h : ∀ e ∈ m.entries, index e.1 ≠ index key) : m.lookup key = none := by
  unfold lookup
  rw [Option.map_eq_none_iff, List.find?_eq_none]
  simpa using h

theorem lookup_present {e : κ × ν} (he : e ∈ m.entries) (hkey : index e.1 = index key)
    : m.lookup key = some e.2 := by
  unfold lookup
  cases hfind : m.entries.find? (fun e => index e.1 = index key) with
  | none =>
    rw [List.find?_eq_none] at hfind
    exact absurd hkey (by simpa using hfind e he)
  | some e' =>
    have hindex : index e'.1 = index key := by simpa using List.find?_some hfind
    have heq : e' = e := by
      apply List.inj_on_of_nodup_map m.nodup (List.mem_of_find?_eq_some hfind) he
      rw [hindex, hkey]
    rw [heq]
    rfl

theorem entries_insert_absent (h : ∀ e ∈ m.entries, index e.1 ≠ index key) (value : ν)
    : (m.insert key value).entries = m.entries ++ [(key, value)] := by
  unfold insert
  rw [dif_neg]
  intro hex
  rcases hex with ⟨e, he, hkey⟩
  apply h e he hkey

theorem entries_insert_present {e : κ × ν} (he : e ∈ m.entries) (hkey : index e.1 = index key)
    (value : ν)
    : (m.insert key value).entries = overwrite index m.entries key value := by
  unfold insert
  rw [dif_pos ⟨e, he, hkey⟩]
  rfl

theorem entries_erase_absent (h : ∀ e ∈ m.entries, index e.1 ≠ index key)
    : (m.erase key).entries = m.entries := by
  unfold erase
  rw [List.filter_eq_self]
  simpa using h

theorem entries_erase_present {l1 l2 : List (κ × ν)} {e : κ × ν} (h : m.entries = l1 ++ e :: l2)
    (hkey : index e.1 = index key)
    : (m.erase key).entries = l1 ++ l2 := by
  have hnodup := m.nodup
  rw [h, List.map_append, List.map_cons, List.nodup_middle, List.nodup_cons, List.mem_append,
    not_or] at hnodup
  have hother {l : List (κ × ν)} (hl : index e.1 ∉ l.map (fun e => index e.1))
      : l.filter (fun e => index e.1 ≠ index key) = l := by
    rw [List.filter_eq_self]
    intro e' he'
    apply decide_eq_true
    intro heq
    apply hl
    rw [hkey, ← heq]
    apply List.mem_map_of_mem he'
  show m.entries.filter (fun e => index e.1 ≠ index key) = l1 ++ l2
  rw [h, List.filter_append, List.filter_cons_of_neg (by simp [hkey]), hother hnodup.1.1,
    hother hnodup.1.2]

end Indexed
