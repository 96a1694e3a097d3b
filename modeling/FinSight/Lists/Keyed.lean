import Mathlib.Data.List.Nodup

/-!
# Rows with unique keys

* `eq_of_key_eq` : rows of one key are one row; `find?_eq_some` : a search that fixes the key finds it;
* `nodup_concat` : a row with a new key keeps the keys unique.
-/

namespace Keyed

variable {α κ : Type} {key : α → κ} {rows : List α}

theorem eq_of_key_eq (h : (rows.map key).Nodup) {a b : α} (ha : a ∈ rows) (hb : b ∈ rows) (hkey : key a = key b) : a = b :=
  List.inj_on_of_nodup_map h ha hb hkey

theorem find?_eq_some (h : (rows.map key).Nodup) {p : α → Bool} {a : α} (ha : a ∈ rows) (hp : p a = true)
    (hkey : ∀ b, p b = true → key b = key a) : rows.find? p = some a := by
  obtain ⟨b, hb⟩ := Option.isSome_iff_exists.mp (List.find?_isSome.mpr ⟨a, ha, hp⟩)
  rw [hb, eq_of_key_eq h (List.mem_of_find?_eq_some hb) ha (hkey b (List.find?_some hb))]

theorem nodup_concat (h : (rows.map key).Nodup) {a : α} (hnew : ∀ x ∈ rows, key x ≠ key a) : ((rows ++ [a]).map key).Nodup := by
  rw [List.map_append, List.nodup_append]
  refine ⟨h, List.nodup_singleton _, fun x hx y hy => ?_⟩
  obtain ⟨z, hz, rfl⟩ := List.mem_map.mp hx
  rw [List.map_singleton, List.mem_singleton] at hy
  exact hy ▸ hnew z hz

end Keyed
