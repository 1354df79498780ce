import Velocity.Lib.Map
import Velocity.Lib.Percent
import Mathlib.Data.List.Lex
import Mathlib.Data.List.Sort

/-! Query strings: the values under each key, their text in the order of the keys, and the values
read from a text. -/

abbrev Values := FMap Bytes (List Bytes)

namespace Values

open List FMap Percent Bytes

def get (q : Values) (k : Bytes) : Bytes := (FMap.items q k).headD []

def sortedKeys (q : Values) : List Bytes := q.keys.insertionSort (· ≤ ·)

def pairs (q : Values) : List (Bytes × Bytes) :=
  q.sortedKeys.flatMap fun k => (FMap.items q k).map fun v => (k, v)

def pairText (e : Bytes × Bytes) : Bytes :=
  Percent.queryEscape e.1 ++ Byte.of '=' :: Percent.queryEscape e.2

/-- Every pair but the first is written behind an ampersand. -/
def encodeLoop : Bytes → List (Bytes × Bytes) → Bytes
  | buf, [] => buf
  | buf, e :: es =>
    encodeLoop ((if buf ≠ [] then buf ++ Bytes.ascii "&" else buf) ++ pairText e) es

def encode (q : Values) : Bytes := encodeLoop [] q.pairs

/-- One piece of a query string: a piece that cannot be read is skipped. -/
def addText (q : Values) (text : Bytes) : Values :=
  if Byte.of ';' ∈ text ∨ text = [] then q
  else
    let (key, value) := Bytes.cut (Byte.of '=') text
    match Percent.queryUnescape key, Percent.queryUnescape value with
    | some k, some v => q.insert k (FMap.items q k ++ [v])
    | _, _ => q

def parseQuery (s : Bytes) : Values := (Bytes.split (Byte.of '&') s).foldl addText ∅

def valuesOf (k : Bytes) (es : List (Bytes × Bytes)) : List Bytes :=
  es.filterMap fun e => if e.1 = k then some e.2 else none

theorem valuesOf_append (k : Bytes) (es es' : List (Bytes × Bytes)) :
    valuesOf k (es ++ es') = valuesOf k es ++ valuesOf k es' :=
  filterMap_append

theorem valuesOf_map (k a : Bytes) (vs : List Bytes) :
    valuesOf k (vs.map fun v => (a, v)) = if a = k then vs else [] := by
  by_cases h : a = k
  · simp [valuesOf, h]
  · simp [valuesOf, h]

theorem valuesOf_flatMap {ks : List Bytes} (h : ks.Nodup) (f : Bytes → List Bytes) (k : Bytes) :
    valuesOf k (ks.flatMap fun a => (f a).map fun v => (a, v)) = if k ∈ ks then f k else [] := by
  induction ks with
  | nil => simp [valuesOf]
  | cons a ks ih =>
    obtain ⟨hnew, hrest⟩ := nodup_cons.mp h
    rw [flatMap_cons, valuesOf_append, valuesOf_map, ih hrest]
    by_cases ha : a = k
    · subst ha
      simp [hnew]
    · have hk : k ∈ a :: ks ↔ k ∈ ks := by
        rw [mem_cons, or_iff_right fun he : k = a => ha he.symm]
      rw [if_neg ha, nil_append]
      simp only [hk]

theorem mem_sortedKeys {q : Values} {k : Bytes} : k ∈ q.sortedKeys ↔ k ∈ q.keys :=
  mem_insertionSort _

variable (q : Values)

theorem sortedKeys_nodup : q.sortedKeys.Nodup :=
  (perm_insertionSort (· ≤ ·) q.keys).nodup_iff.mpr q.keys_nodup

theorem valuesOf_pairs (k : Bytes) : valuesOf k q.pairs = items q k := by
  rw [pairs, valuesOf_flatMap q.sortedKeys_nodup]
  by_cases hk : k ∈ q.sortedKeys
  · rw [if_pos hk]
  · have hlookup : q.lookup k = none := by
      rw [AList.lookup_eq_none]
      exact fun hmem => hk (mem_sortedKeys.mpr hmem)
    rw [if_neg hk, items, hlookup]
    rfl

def usedKeys (q : Values) : List Bytes := q.sortedKeys.filter fun k => items q k ≠ []

theorem pairs_eq_usedKeys (q : Values) :
    q.pairs = q.usedKeys.flatMap fun k => (items q k).map fun v => (k, v) := by
  unfold pairs usedKeys
  induction q.sortedKeys with
  | nil => rfl
  | cons k ks ih =>
    by_cases hk : items q k = []
    · simp [hk, ih]
    · simp [hk, ih]

theorem mem_usedKeys (q : Values) (k : Bytes) : k ∈ q.usedKeys ↔ items q k ≠ [] := by
  rw [usedKeys, mem_filter, mem_sortedKeys, decide_eq_true_eq, and_iff_right_iff_imp]
  intro hne
  by_contra hk
  apply hne
  rw [items, AList.lookup_eq_none.mpr fun hin => hk (AList.mem_keys.mp hin)]
  rfl

theorem pairs_congr {q q' : Values} (h : ∀ k, items q k = items q' k) : q.pairs = q'.pairs := by
  have hkeys : q.usedKeys = q'.usedKeys := by
    have hsorted (q : Values) : q.usedKeys.Pairwise (· ≤ ·) :=
      (pairwise_insertionSort (· ≤ ·) q.keys).filter _
    have hnodup (q : Values) : q.usedKeys.Nodup := q.sortedKeys_nodup.filter _
    have hperm := (perm_ext_iff_of_nodup (hnodup q) (hnodup q')).mpr fun k => by
      rw [mem_usedKeys, mem_usedKeys, h]
    exact hperm.eq_of_pairwise' (hsorted q) (hsorted q')
  rw [pairs_eq_usedKeys q, pairs_eq_usedKeys q', hkeys]
  simp only [h]

section Reserved

theorem equals_reserved : Percent.Reserved .queryComponent (Byte.of '=') :=
  ⟨by decide, by decide, by decide, by decide⟩

theorem ampersand_reserved : Percent.Reserved .queryComponent (Byte.of '&') :=
  ⟨by decide, by decide, by decide, by decide⟩

theorem semicolon_reserved : Percent.Reserved .queryComponent (Byte.of ';') :=
  ⟨by decide, by decide, by decide, by decide⟩

theorem not_mem_pairText {c : Byte} (h : Percent.Reserved .queryComponent c)
    (hc : c ≠ Byte.of '=') (e : Bytes × Bytes) : c ∉ pairText e := by
  have hkey : c ∉ queryEscape e.1 := h.not_mem_escape e.1
  have hvalue : c ∉ queryEscape e.2 := h.not_mem_escape e.2
  simp [pairText, hkey, hvalue, hc]

end Reserved

variable (e : Bytes × Bytes)

theorem pairText_ne_nil : pairText e ≠ [] := by
  simp [pairText]

theorem pairText_injective : Function.Injective pairText := by
  intro e e' h
  have hkey := equals_reserved.not_mem_escape e.1
  have hvalue := equals_reserved.not_mem_escape e.2
  obtain ⟨hk, -, hv⟩ := (append_cons_inj_of_notMem hkey hvalue).mp h
  exact Prod.ext (escape_injective _ hk) (escape_injective _ hv)

theorem addText_pairText : q.addText (pairText e) = q.insert e.1 (items q e.1 ++ [e.2]) := by
  have hskip : ¬(Byte.of ';' ∈ pairText e ∨ pairText e = []) := by
    rintro (hsemi | hnil)
    · exact not_mem_pairText semicolon_reserved (by decide) e hsemi
    · exact pairText_ne_nil e hnil
  have hcut : cut (Byte.of '=') (pairText e) = (queryEscape e.1, queryEscape e.2) :=
    cut_append (equals_reserved.not_mem_escape e.1) _
  have hkey : queryUnescape (queryEscape e.1) = some e.1 :=
    unescape_escape _ _
  have hvalue : queryUnescape (queryEscape e.2) = some e.2 :=
    unescape_escape _ _
  rw [addText, if_neg hskip, hcut]
  simp only [hkey, hvalue]

theorem items_foldl_addText (es : List (Bytes × Bytes)) (q : Values) (k : Bytes) :
    items ((es.map pairText).foldl addText q) k = items q k ++ valuesOf k es := by
  induction es generalizing q with
  | nil => simp [valuesOf]
  | cons e es ih =>
    rw [map_cons, foldl_cons, ih, addText_pairText, items_insert]
    by_cases he : e.1 = k
    · simp [valuesOf, he]
    · have hk : ¬k = e.1 := fun h => he h.symm
      simp [valuesOf, he, hk]

theorem encodeLoop_eq (buf : Bytes) (es : List (Bytes × Bytes)) (hbuf : buf ≠ []) :
    encodeLoop buf es = buf ++ es.flatMap fun e => Byte.of '&' :: pairText e := by
  induction es generalizing buf with
  | nil => simp [encodeLoop]
  | cons e es ih =>
    rw [encodeLoop, if_pos hbuf, ih _ (by simp [pairText_ne_nil]), flatMap_cons]
    simp [ascii]

theorem join_pairTexts (es : List (Bytes × Bytes)) :
    join [Byte.of '&'] ((e :: es).map pairText) =
      pairText e ++ es.flatMap fun e => Byte.of '&' :: pairText e := by
  induction es generalizing e with
  | nil => simp [join]
  | cons e' es ih =>
    rw [map_cons, map_cons, join, ← map_cons, ih]
    · simp
    · simp

theorem encode_eq_join : q.encode = join [Byte.of '&'] (q.pairs.map pairText) := by
  unfold encode
  cases q.pairs with
  | nil => rfl
  | cons e es =>
    rw [encodeLoop, if_neg (by simp), nil_append, encodeLoop_eq _ _ (pairText_ne_nil e), join_pairTexts]

theorem items_parseQuery_encode (k : Bytes) : items (parseQuery q.encode) k = items q k := by
  rw [← valuesOf_pairs q, encode_eq_join]
  cases hpairs : q.pairs with
  | nil => rfl
  | cons e es =>
    have hamp : ∀ p ∈ (e :: es).map pairText, Byte.of '&' ∉ p := by
      intro p hp
      obtain ⟨e', -, rfl⟩ := mem_map.mp hp
      exact not_mem_pairText ampersand_reserved (by decide) e'
    rw [parseQuery, split_join (by simp) hamp, items_foldl_addText, items_empty, nil_append]

theorem addText_cases (text : Bytes) :
    q.addText text = q ∨ ∃ k v, q.addText text = q.insert k (items q k ++ [v]) := by
  unfold addText
  split
  · exact Or.inl rfl
  · simp only
    split
    · exact Or.inr ⟨_, _, rfl⟩
    · exact Or.inl rfl

theorem lookup_parseQuery_ne_nil {s k : Bytes} {vs : List Bytes}
    (h : (parseQuery s).lookup k = some vs) : vs ≠ [] := by
  unfold parseQuery at h
  have hempty : ∀ vs, (∅ : Values).lookup k = some vs → vs ≠ [] := by simp
  generalize split (Byte.of '&') s = texts at h
  generalize (∅ : Values) = q at h hempty
  induction texts generalizing q with
  | nil => exact hempty vs h
  | cons text texts ih =>
    apply ih (q.addText text) h
    intro vs' hvs'
    rcases addText_cases q text with hsame | ⟨k', v, hnew⟩
    · rw [hsame] at hvs'
      exact hempty vs' hvs'
    · rw [hnew, lookup_insert_ite] at hvs'
      split at hvs'
      · rw [← Option.some.inj hvs']
        simp
      · exact hempty vs' hvs'

end Values
