/-!
Maps that keep the order in which their keys were first put in.
-/

namespace MarchingDrill

structure OrderedMap (κ α : Type) where
  entries : List (κ × α)
  distinct : (entries.map Prod.fst).Nodup

namespace OrderedMap

variable {κ α β : Type}

theorem ext {m n : OrderedMap κ α} (h : m.entries = n.entries) : m = n := by
  cases m
  cases n
  simp only [mk.injEq]
  exact h

def empty : OrderedMap κ α := ⟨[], .nil⟩

instance : Inhabited (OrderedMap κ α) := ⟨empty⟩

instance [BEq κ] [BEq α] : BEq (OrderedMap κ α) := ⟨fun m n => m.entries == n.entries⟩

def keys (m : OrderedMap κ α) : List κ := m.entries.map Prod.fst

def values (m : OrderedMap κ α) : List α := m.entries.map Prod.snd

def map (f : κ → α → β) (m : OrderedMap κ α) : OrderedMap κ β where
  entries := m.entries.map fun e => (e.1, f e.1 e.2)
  distinct := by simpa only [List.map_map, Function.comp_def] using m.distinct

variable [DecidableEq κ]

def get? (m : OrderedMap κ α) (k : κ) : Option α := m.entries.lookup k

/-- Changes the value of a key where it stands, or puts a new entry last. -/
def putEntry (k : κ) (f : Option α → α) : List (κ × α) → List (κ × α)
  | [] => [(k, f none)]
  | e :: es => if e.1 = k then (k, f (some e.2)) :: es else e :: putEntry k f es

theorem mem_keys_putEntry {k : κ} {f : Option α → α} {x : κ} (es : List (κ × α)) :
    x ∈ (putEntry k f es).map Prod.fst ↔ x = k ∨ x ∈ es.map Prod.fst := by
  induction es with
  | nil => simp [putEntry]
  | cons e es ih =>
    by_cases h : e.1 = k
    · simp [putEntry, h]
    · simp only [putEntry, h, if_false, List.map_cons, List.mem_cons, ih]
      exact or_left_comm

theorem nodup_keys_putEntry (k : κ) (f : Option α → α) (es : List (κ × α))
    (h : (es.map Prod.fst).Nodup) : ((putEntry k f es).map Prod.fst).Nodup := by
  induction es with
  | nil => simp [putEntry]
  | cons e es ih =>
    rw [List.map_cons, List.nodup_cons] at h
    by_cases hk : e.1 = k
    · rw [putEntry, if_pos hk, List.map_cons, List.nodup_cons]
      exact ⟨hk ▸ h.1, h.2⟩
    · rw [putEntry, if_neg hk, List.map_cons, List.nodup_cons, mem_keys_putEntry]
      exact ⟨fun he => he.elim hk h.1, ih h.2⟩

def alter (m : OrderedMap κ α) (k : κ) (f : Option α → α) : OrderedMap κ α where
  entries := putEntry k f m.entries
  distinct := nodup_keys_putEntry k f m.entries m.distinct

def insert (m : OrderedMap κ α) (k : κ) (a : α) : OrderedMap κ α := m.alter k fun _ => a

def ofList (es : List (κ × α)) : OrderedMap κ α := es.foldl (fun m e => m.insert e.1 e.2) empty

end OrderedMap

end MarchingDrill
