import Velocity.Lib.Float64
import Velocity.Lib.Map
import Velocity.Lib.Utf8
import Mathlib.Data.Rat.Defs

/-! Values as a program holds them, and what is left of them when their JSON text is read back:
numbers are doubles, texts valid UTF-8, and the members of an object in the order of their keys,
each key once. -/

namespace Json

open List

mutual

/-- A `foreign` value is one that has no JSON text. A number is given by what it is worth. -/
inductive Tree
  | null
  | bool (b : Bool)
  | integer (n : Int)
  | number (x : ℚ)
  | text (s : Bytes)
  | array (elements : Elements)
  | object (members : Members)
  | foreign (n : Nat)
deriving DecidableEq

inductive Elements
  | nil
  | cons (first : Tree) (rest : Elements)
deriving DecidableEq

/-- In the order of the encoder, which is that of the keys. -/
inductive Members
  | nil
  | cons (key : Bytes) (value : Tree) (rest : Members)
deriving DecidableEq

end

instance : Inhabited Tree := ⟨.null⟩

namespace Members

def keys : Members → List Bytes
  | nil => []
  | cons k _ rest => k :: rest.keys

def insert (k : Bytes) (t : Tree) : Members → Members
  | nil => cons k t nil
  | cons k' t' rest =>
    if k < k' then cons k t (cons k' t' rest)
    else if k = k' then cons k t rest
    else cons k' t' (insert k t rest)

def append : Members → Members → Members
  | nil, m => m
  | cons k t rest, m => cons k t (rest.append m)

end Members

mutual

def Tree.reread : Tree → Option Tree
  | .null => some .null
  | .bool b => some (.bool b)
  | .integer n => some (.number (Float64.ofInt n))
  | .number x => some (.number x)
  | .text s => some (.text (Utf8.repair s))
  | .array elements => elements.reread.map .array
  | .object members => (members.reread .nil).map .object
  | .foreign _ => none

def Elements.reread : Elements → Option Elements
  | .nil => some .nil
  | .cons t rest =>
    match t.reread, rest.reread with
    | some t', some rest' => some (.cons t' rest')
    | _, _ => none

def Members.reread : Members → Members → Option Members
  | .nil, sofar => some sofar
  | .cons k t rest, sofar =>
    match t.reread with
    | some t' => rest.reread (sofar.insert (Utf8.repair k) t')
    | none => none

end

namespace Members

def Read : Members → Prop
  | nil => True
  | cons k t rest => Utf8.repair k = k ∧ t.reread = some t ∧ (∀ k' ∈ rest.keys, k < k') ∧ rest.Read

variable {t : Tree}

theorem mem_keys_insert {k k' : Bytes} :
    ∀ m : Members, k' ∈ (m.insert k t).keys → k' = k ∨ k' ∈ m.keys
  | nil, h => by simpa [insert, keys] using h
  | cons k₀ t₀ rest, h => by
    have ih : k' ∈ (rest.insert k t).keys → k' = k ∨ k' ∈ rest.keys := mem_keys_insert rest
    simp only [insert] at h
    split at h
    · simpa [keys] using h
    · split at h
      · simp only [keys, mem_cons] at h ⊢
        tauto
      · simp only [keys, mem_cons] at h ⊢
        tauto

variable {k : Bytes}

theorem Read.insert (hk : Utf8.repair k = k) (ht : t.reread = some t) :
    ∀ m : Members, m.Read → (m.insert k t).Read
  | nil, _ => ⟨hk, ht, by simp [keys], trivial⟩
  | cons k₀ t₀ rest, ⟨hk₀, ht₀, hlt, hrest⟩ => by
    have ih := Read.insert hk ht rest hrest
    simp only [Members.insert]
    split
    case isTrue hless =>
      refine ⟨hk, ht, ?_, hk₀, ht₀, hlt, hrest⟩
      intro k' hk'
      rcases mem_cons.mp hk' with rfl | hk'
      · exact hless
      · exact hless.trans (hlt k' hk')
    case isFalse hless =>
      split
      case isTrue heq => exact ⟨hk, ht, heq ▸ hlt, hrest⟩
      case isFalse hne =>
        refine ⟨hk₀, ht₀, ?_, ih⟩
        intro k' hk'
        rcases mem_keys_insert rest hk' with rfl | hk'
        · exact lt_of_le_of_ne (not_lt.mp hless) (Ne.symm hne)
        · exact hlt k' hk'

theorem append_nil : ∀ m : Members, m.append nil = m
  | nil => rfl
  | cons k t rest => by rw [append, append_nil rest]

theorem append_assoc (m' m'' : Members) :
    ∀ m : Members, (m.append m').append m'' = m.append (m'.append m'')
  | nil => rfl
  | cons k t rest => by rw [append, append, append, append_assoc m' m'' rest]

theorem insert_last :
    ∀ m : Members, (∀ k' ∈ m.keys, k' < k) → m.insert k t = m.append (cons k t nil)
  | nil, _ => rfl
  | cons k₀ t₀ rest, h => by
    have hlt : k₀ < k := h k₀ mem_cons_self
    rw [insert, if_neg (lt_asymm hlt), if_neg (ne_of_gt hlt), append]
    rw [insert_last rest fun k' hk' => h k' (mem_cons_of_mem _ hk')]

theorem mem_keys_append (m' : Members) :
    ∀ m : Members, k ∈ (m.append m').keys ↔ k ∈ m.keys ∨ k ∈ m'.keys
  | nil => by simp [append, keys]
  | cons k₀ t₀ rest => by simp [append, keys, mem_keys_append m' rest, or_assoc]

theorem Read.reread_append :
    ∀ (m sofar : Members), m.Read → (∀ k ∈ sofar.keys, ∀ k' ∈ m.keys, k < k') →
      m.reread sofar = some (sofar.append m)
  | nil, sofar, _, _ => by rw [reread, append_nil]
  | cons k t rest, sofar, ⟨hk, ht, hlt, hrest⟩, hbefore => by
    have hlast := insert_last (t := t) sofar fun k' hk' => hbefore k' hk' k mem_cons_self
    have hbefore' : ∀ k' ∈ (sofar.append (cons k t nil)).keys, ∀ k'' ∈ rest.keys, k' < k'' := by
      intro k' hk' k'' hk''
      rcases (mem_keys_append _ sofar).mp hk' with hk' | hk'
      · exact hbefore k' hk' k'' (mem_cons_of_mem _ hk'')
      · obtain rfl : k' = k := by simpa [keys] using hk'
        exact hlt k'' hk''
    rw [reread, ht]
    simp only
    rw [hk, hlast, reread_append rest _ hrest hbefore', append_assoc]
    rfl

end Members

mutual

theorem Tree.reread_reread : ∀ (t t' : Tree), t.reread = some t' → t'.reread = some t'
  | .null, t', h => by
    obtain rfl : Tree.null = t' := by simpa [Tree.reread] using h
    rfl
  | .bool b, t', h => by
    obtain rfl : Tree.bool b = t' := by simpa [Tree.reread] using h
    rfl
  | .integer n, t', h => by
    obtain rfl : Tree.number (Float64.ofInt n) = t' := by simpa [Tree.reread] using h
    rfl
  | .number x, t', h => by
    obtain rfl : Tree.number x = t' := by simpa [Tree.reread] using h
    rfl
  | .text s, t', h => by
    obtain rfl : Tree.text (Utf8.repair s) = t' := by simpa [Tree.reread] using h
    rw [Tree.reread, Utf8.repair_repair]
  | .array elements, t', h => by
    rw [Tree.reread, Option.map_eq_some_iff] at h
    obtain ⟨read, hread, rfl⟩ := h
    rw [Tree.reread, Elements.reread_reread elements read hread]
    rfl
  | .object members, t', h => by
    rw [Tree.reread, Option.map_eq_some_iff] at h
    obtain ⟨read, hread, rfl⟩ := h
    have hgood := Members.read_of_reread members .nil read trivial hread
    have hsame := Members.Read.reread_append read .nil hgood (by simp [Members.keys])
    rw [Tree.reread, hsame]
    rfl
  | .foreign n, t', h => by simp [Tree.reread] at h

theorem Elements.reread_reread : ∀ (l l' : Elements), l.reread = some l' → l'.reread = some l'
  | .nil, l', h => by
    obtain rfl : Elements.nil = l' := by simpa [Elements.reread] using h
    rfl
  | .cons t rest, l', h => by
    rw [Elements.reread] at h
    cases ht : t.reread with
    | none => simp [ht] at h
    | some t' =>
      cases hrest : rest.reread with
      | none => simp [ht, hrest] at h
      | some rest' =>
        obtain rfl : Elements.cons t' rest' = l' := by simpa [ht, hrest] using h
        rw [Elements.reread, Tree.reread_reread t t' ht, Elements.reread_reread rest rest' hrest]

theorem Members.read_of_reread :
    ∀ (m sofar m' : Members), sofar.Read → m.reread sofar = some m' → m'.Read
  | .nil, sofar, m', hsofar, h => by
    obtain rfl : sofar = m' := by simpa [Members.reread] using h
    exact hsofar
  | .cons k t rest, sofar, m', hsofar, h => by
    rw [Members.reread] at h
    cases ht : t.reread with
    | none => simp [ht] at h
    | some t' =>
      simp only [ht] at h
      have hnext := Members.Read.insert (Utf8.repair_repair k) (Tree.reread_reread t t' ht) sofar hsofar
      exact Members.read_of_reread rest _ m' hnext h

end

section Maps

variable {V : Type} (f : V → Option V)

def readEntries : List (Sigma fun _ : Bytes => V) → FMap Bytes V → Option (FMap Bytes V)
  | [], sofar => some sofar
  | e :: rest, sofar =>
    match f e.2 with
    | some v => readEntries rest (sofar.insert (Utf8.repair e.1) v)
    | none => none

/-- What a map is read back as, when `f` says it of the values. -/
def rereadMap (m : FMap Bytes V) : Option (FMap Bytes V) :=
  readEntries f (m.entries.insertionSort fun a b => a.1 ≤ b.1) ∅

variable {f} {l : List (Sigma fun _ : Bytes => V)} {k : Bytes} {v : V} {sofar m : FMap Bytes V}
  {e : Sigma fun _ : Bytes => V}

theorem lookup_readEntries (h : readEntries f l sofar = some m) (hk : m.lookup k = some v) :
    sofar.lookup k = some v ∨ ∃ e ∈ l, Utf8.repair e.1 = k ∧ f e.2 = some v := by
  induction l generalizing sofar with
  | nil =>
    obtain rfl : sofar = m := by simpa [readEntries] using h
    exact .inl hk
  | cons e rest ih =>
    rw [readEntries] at h
    cases hv : f e.2 with
    | none => simp [hv] at h
    | some w =>
      simp only [hv] at h
      rcases ih h with hold | ⟨e', he', hrest⟩
      · rw [FMap.lookup_insert_ite] at hold
        split at hold
        case isTrue heq =>
          obtain rfl : w = v := by simpa using hold
          exact .inr ⟨e, mem_cons_self, heq.symm, hv⟩
        case isFalse => exact .inl hold
      · exact .inr ⟨e', mem_cons_of_mem _ he', hrest⟩

theorem dlookup_readEntries (h : readEntries f l sofar = some m) (hk : Utf8.repair k = k)
    (halone : ∀ e ∈ l, Utf8.repair e.1 = k → e.1 = k) (hkeys : l.NodupKeys) :
    m.lookup k = (l.dlookup k).elim (sofar.lookup k) f := by
  induction l generalizing sofar with
  | nil =>
    obtain rfl : sofar = m := by simpa [readEntries] using h
    rfl
  | cons e rest ih =>
    obtain ⟨k₀, v₀⟩ := e
    have hrest := nodupKeys_cons.mp hkeys
    rw [readEntries] at h
    cases hv : f v₀ with
    | none => simp [hv] at h
    | some w =>
      simp only [hv] at h
      have hih := ih h (fun e he => halone e (mem_cons_of_mem _ he)) hrest.2
      rw [hih]
      by_cases hk₀ : k = k₀
      · subst hk₀
        have hnone : rest.dlookup k = none := dlookup_eq_none.mpr hrest.1
        rw [hnone, hk]
        simp [hv]
      · have hne : dlookup k (⟨k₀, v₀⟩ :: rest) = rest.dlookup k := dlookup_cons_ne _ _ hk₀
        have hread : k ≠ Utf8.repair k₀ := by
          intro heq
          exact hk₀ (halone ⟨k₀, v₀⟩ mem_cons_self heq.symm).symm
        rw [hne, FMap.lookup_insert_ite, if_neg hread]

theorem isSome_of_readEntries (h : readEntries f l sofar = some m) (he : e ∈ l) :
    (f e.2).isSome := by
  induction l generalizing sofar with
  | nil => cases he
  | cons e' rest ih =>
    rw [readEntries] at h
    cases hv : f e'.2 with
    | none => simp [hv] at h
    | some w =>
      simp only [hv] at h
      rcases mem_cons.mp he with rfl | he
      · rw [hv]
        rfl
      · exact ih h he

theorem mem_sorted_iff {m : FMap Bytes V} :
    e ∈ m.entries.insertionSort (fun a b => a.1 ≤ b.1) ↔ m.lookup e.1 = some e.2 := by
  rw [mem_insertionSort]
  exact AList.mem_lookup_iff.symm

variable {m' : FMap Bytes V} (h : rereadMap f m = some m')

include h

theorem lookup_rereadMap (hk : m'.lookup k = some v) :
    ∃ k₀ v₀, m.lookup k₀ = some v₀ ∧ Utf8.repair k₀ = k ∧ f v₀ = some v := by
  rcases lookup_readEntries h hk with hbad | ⟨e, he, hkey, hv⟩
  · cases hbad
  · exact ⟨e.1, e.2, mem_sorted_iff.mp he, hkey, hv⟩

theorem repair_of_rereadMap (hk : m'.lookup k = some v) : Utf8.repair k = k := by
  obtain ⟨k₀, -, -, rfl, -⟩ := lookup_rereadMap h hk
  exact Utf8.repair_repair k₀

theorem lookup_rereadMap_of_alone
    (hk : Utf8.repair k = k) (halone : ∀ k₀ v, m.lookup k₀ = some v → Utf8.repair k₀ = k → k₀ = k) :
    m'.lookup k = (m.lookup k).bind f := by
  have hperm := perm_insertionSort (fun a b : Sigma fun _ : Bytes => V => a.1 ≤ b.1) m.entries
  have hkeys := (perm_nodupKeys hperm).mpr m.nodupKeys
  have hlookup : (m.entries.insertionSort fun a b => a.1 ≤ b.1).dlookup k = m.lookup k :=
    perm_dlookup k hkeys hperm
  have hread := dlookup_readEntries h hk (fun e he => halone e.1 e.2 (mem_sorted_iff.mp he)) hkeys
  rw [hread, hlookup]
  cases m.lookup k <;> rfl

theorem isSome_of_rereadMap (hk : m.lookup k = some v) : (f v).isSome :=
  isSome_of_readEntries h (e := ⟨k, v⟩) (mem_sorted_iff.mpr hk)

end Maps

end Json
