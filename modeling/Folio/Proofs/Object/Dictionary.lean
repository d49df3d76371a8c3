import Mathlib
import Folio.Object.Basic

/-!
# Dictionaries are lists in order of their keys

Main statement: entries with different keys, inserted in any order, give the dictionary that lists them in
the order of their keys.
-/

namespace Folio

variable {key : Name} {value : Object} {entries entries' : List (Name × Object)} {d : Dict}

theorem Name.lt_of_not_lt {k l : Name} (hne : k ≠ l) (h : ¬ k < l) : l < k := by
  by_contra hlt
  have hbytes : k.bytes = l.bytes := List.le_antisymm (List.not_lt.mp hlt) (List.not_lt.mp h)
  cases k
  cases l
  exact hne (congrArg _ hbytes)

namespace Dict

theorem eq_of_entries_eq {e : Dict} (h : d.entries = e.entries) : d = e := by
  cases d
  cases e
  exact congrArg Dict.mk h

/-- Whether the keys of entries increase. -/
def Increasing (entries : List (Name × Object)) : Prop :=
  entries.Pairwise fun p q => p.1 < q.1

theorem increasing_cons {p : Name × Object} :
    Increasing (p :: entries) ↔ (∀ q ∈ entries, p.1 < q.1) ∧ Increasing entries :=
  List.pairwise_cons

theorem Increasing.eq_of_perm (h : Increasing entries) (h' : Increasing entries')
    (hperm : entries.Perm entries') : entries = entries' :=
  hperm.eq_of_pairwise (fun _ _ _ _ hlt hgt => absurd hgt (List.lt_asymm hlt)) h h'

theorem Increasing.nodup_keys (h : Increasing entries) : (entries.map Prod.fst).Nodup := by
  refine List.pairwise_map.mpr (h.imp fun hlt heq => ?_)
  rw [heq] at hlt
  exact List.lt_irrefl _ hlt

theorem perm_insertEntry (h : key ∉ entries.map Prod.fst) :
    (insertEntry key value entries).Perm ((key, value) :: entries) := by
  induction entries with
  | nil => exact .refl _
  | cons p entries ih =>
    obtain ⟨k, v⟩ := p
    simp only [List.map_cons, List.mem_cons, not_or] at h
    rw [insertEntry, if_neg h.1]
    by_cases hlt : key < k
    · rw [if_pos hlt]
    · rw [if_neg hlt]
      exact ((ih h.2).cons _).trans (.swap _ _ _)

theorem increasing_insertEntry (h : key ∉ entries.map Prod.fst) (hentries : Increasing entries) :
    Increasing (insertEntry key value entries) := by
  induction entries with
  | nil => exact List.pairwise_singleton _ _
  | cons p entries ih =>
    obtain ⟨k, v⟩ := p
    obtain ⟨hfirst, hrest⟩ := increasing_cons.mp hentries
    simp only [List.map_cons, List.mem_cons, not_or] at h
    rw [insertEntry, if_neg h.1]
    by_cases hlt : key < k
    · rw [if_pos hlt, increasing_cons]
      refine ⟨fun q hq => ?_, hentries⟩
      rcases List.mem_cons.mp hq with rfl | hq
      · exact hlt
      · exact List.lt_trans hlt (hfirst q hq)
    · rw [if_neg hlt, increasing_cons]
      refine ⟨fun q hq => ?_, ih h.2 hrest⟩
      rcases List.mem_cons.mp ((perm_insertEntry h.2).mem_iff.mp hq) with rfl | hq
      · exact Name.lt_of_not_lt h.1 hlt
      · exact hfirst q hq

/-- Entries are added to a dictionary that has none of their keys. -/
theorem perm_foldl_insert (hd : Increasing d.entries)
    (hnodup : ((d.entries ++ entries).map Prod.fst).Nodup) :
    Increasing (entries.foldl (fun d p => d.insert p.1 p.2) d).entries ∧
      (entries.foldl (fun d p => d.insert p.1 p.2) d).entries.Perm (d.entries ++ entries) := by
  induction entries generalizing d with
  | nil => simpa using hd
  | cons p entries ih =>
    obtain ⟨key, value⟩ := p
    have hmiddle : (d.entries ++ (key, value) :: entries).Perm
        ((key, value) :: (d.entries ++ entries)) := List.perm_middle
    have hnodup' := (hmiddle.map Prod.fst).nodup_iff.mp hnodup
    rw [List.map_cons, List.nodup_cons, List.map_append] at hnodup'
    have hkey : key ∉ d.entries.map Prod.fst := fun h => hnodup'.1 (List.mem_append_left _ h)
    have hinsert : (d.insert key value).entries.Perm ((key, value) :: d.entries) :=
      perm_insertEntry hkey
    have hperm : ((d.insert key value).entries ++ entries).Perm
        (d.entries ++ (key, value) :: entries) :=
      (hinsert.append_right entries).trans hmiddle.symm
    obtain ⟨hincreasing, hresult⟩ := ih (increasing_insertEntry hkey hd)
      ((hperm.map Prod.fst).nodup_iff.mpr hnodup)
    exact ⟨hincreasing, hresult.trans hperm⟩

theorem foldl_insert_eq_of_perm (hd : Increasing d.entries) (hperm : entries.Perm d.entries) :
    entries.foldl (fun d p => d.insert p.1 p.2) empty = d := by
  have hempty : Increasing empty.entries := List.Pairwise.nil
  have hnodup : ((empty.entries ++ entries).map Prod.fst).Nodup :=
    (hperm.map Prod.fst).nodup_iff.mpr hd.nodup_keys
  obtain ⟨hincreasing, hresult⟩ := perm_foldl_insert hempty hnodup
  exact eq_of_entries_eq (hincreasing.eq_of_perm hd (hresult.trans hperm))

end Dict

end Folio
