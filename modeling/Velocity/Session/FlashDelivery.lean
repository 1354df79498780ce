import Velocity.Session.FlashOnce

/-! The requests together. A flash value has at most one place that it can be delivered from, over all
the requests and the records; a delivery leaves it without one. -/

namespace Session

open Interleave Json MemoryStore Phase Function SessionStep Flashed

/-! What a log says of one request. -/

def historyOf {σ : Type} (next : σ → (o : RequestOp) → RequestRes o → σ) (init : σ)
    (l : Log ServedRes) (r : Nat) : σ :=
  l.foldl (fun a ev => if ev.op.1 = r then next a ev.op.2 ev.res else a) init

theorem historyOf_concat {σ : Type} (next : σ → (o : RequestOp) → RequestRes o → σ) (init : σ)
    (l : Log ServedRes) (ev : Event ServedRes) :
    historyOf next init (l ++ [ev]) = update (historyOf next init l) ev.op.1
      (next (historyOf next init l ev.op.1) ev.op.2 ev.res) := by
  funext r
  rw [historyOf, update_apply]
  by_cases h : ev.op.1 = r
  · subst h
    simp [historyOf]
  · rw [if_neg (Ne.symm h)]
    simp [historyOf, h]

def phaseOf : Log ServedRes → Nat → Phase := historyOf Phase.next .idle

/-- The last set that a save on its way has in its snapshot. -/
def nextSaving : Option Nat → (o : RequestOp) → RequestRes o → Option Nat
  | _, .session .saveBase, s => some s.seq
  | _, .session .endTurn, _ => none
  | m, _, _ => m

def savingOf : Log ServedRes → Nat → Option Nat := historyOf nextSaving none

/-! Where a value can be delivered from. -/

inductive Spot
  | mine (r : Nat) (k : Bytes)
  | stored (id k : Bytes)

/-- The record of the id holds the value. -/
def Stored (w : Requests) (origin : Nat) (id k : Bytes) : Prop :=
  ∃ rec v, w.records.byID.lookup id = some rec ∧ rec.data.flash.lookup k = some v ∧ v.origin = origin

def At (w : Requests) (φ : Nat → Phase) (origin : Nat) : Spot → Prop
  | .mine r k => ∃ s, w.sessions r = some s ∧ Mine s (φ r) k origin
  | .stored id k => Stored w origin id k

structure Orderly (w : Requests) (φ : Nat → Phase) : Prop where
  session : ∀ r s, w.sessions r = some s → s.Good ∧ (φ r).Fits s ∧ Young s (φ r)
  unloaded : ∀ r, w.sessions r = none → φ r = .idle
  keyed : ∀ id rec, w.records.byID.lookup id = some rec → rec.id = id
  unique : ∀ origin x y, At w φ origin x → At w φ origin y → x = y

/-- A value has one place at most. -/
abbrev Alone (w : Requests) (φ : Nat → Phase) : Prop :=
  ∀ origin x y, At w φ origin x → At w φ origin y → x = y

theorem Orderly.ne_astray {w : Requests} {φ : Nat → Phase} (h : Orderly w φ) (r : Nat) :
    φ r ≠ .astray := by
  intro hastray
  cases hs : w.sessions r with
  | none =>
    rw [h.unloaded r hs] at hastray
    cases hastray
  | some s =>
    have hfits := (h.session r s hs).2.1
    rw [hastray] at hfits
    exact hfits

def Sets (origin : Nat) : RequestOp → Prop
  | .session (.flash _ v) => v.origin = origin
  | _ => False

/-- Values do not come from nowhere, and one that is given has no place afterwards. -/
structure Effect (w : Requests) (φ : Nat → Phase) (o : RequestOp) (res : RequestRes o) (w' : Requests)
    (φ' : Nat → Phase) : Prop where
  orderly : Orderly w' φ'
  came : ∀ origin x, At w' φ' origin x → (∃ x', At w φ origin x') ∨ Sets origin o
  gives : ∀ origin, Gives origin o res → (∃ x, At w φ origin x) ∧ ∀ x, ¬ At w' φ' origin x

abbrev StepEffect (w : Requests) (φ : Nat → Phase) (r : Nat) (o : RequestOp) (res : RequestRes o)
    (w' : Requests) : Prop :=
  Effect w φ o res w' (Function.update φ r ((φ r).next o res))

variable {origin : Nat} {p : Phase} {s₀ : ServerSession} {ev : Event ServedRes}

section Steps

variable {w w' : Requests} {φ : Nat → Phase} {r : Nat} {o : RequestOp} {s' : ServerSession}
  {step : SessionStep} {key k id' : Bytes} {payload : RecordPayload}

theorem effect_of_same (h : Orderly w φ) {res : RequestRes o}
    (hphase : (φ r).next o res = φ r) (hgives : ∀ origin, ¬ Gives origin o res) :
    StepEffect w φ r o res w := by
  rw [StepEffect, hphase, update_eq_self]
  exact ⟨h, fun origin x hx => .inl ⟨x, hx⟩, fun origin hg => absurd hg (hgives origin)⟩

theorem Orderly.alone (h : Orderly w φ) {φ' : Nat → Phase}
    (hat : ∀ origin x, At w' φ' origin x → At w φ origin x) : Alone w' φ' :=
  fun origin x y hx hy => h.unique origin x y (hat origin x hx) (hat origin y hy)

theorem Orderly.loaded (h : Orderly w φ) (hr : φ r ≠ .idle) : ∃ s, w.sessions r = some s :=
  Option.ne_none_iff_exists'.mp fun hs => hr (h.unloaded r hs)

variable {p' : Phase}

attribute [local simp] Requests.setSession

theorem Orderly.update (h : Orderly w φ) (hothers : ∀ r', r' ≠ r → w'.sessions r' = w.sessions r')
    (hkeyed : ∀ id rec, w'.records.byID.lookup id = some rec → rec.id = id)
    (hsession : ∀ s, w'.sessions r = some s → s.Good ∧ p'.Fits s ∧ Young s p')
    (hunloaded : w'.sessions r = none → p' = .idle)
    (hunique : Alone w' (update φ r p')) : Orderly w' (update φ r p') := by
  refine ⟨?_, ?_, hkeyed, hunique⟩
  · apply (forall_update_iff φ fun r' p =>
      ∀ s, w'.sessions r' = some s → s.Good ∧ p.Fits s ∧ Young s p).mpr
    exact ⟨hsession, fun r' hr s hs => h.session r' s (hothers r' hr ▸ hs)⟩
  · apply (forall_update_iff φ fun r' p => w'.sessions r' = none → p = .idle).mpr
    exact ⟨hunloaded, fun r' hr hs => h.unloaded r' (hothers r' hr ▸ hs)⟩

theorem orderly_setSession (h : Orderly w φ) (hgood : s'.Good)
    (hfits : p'.Fits s') (hyoung : Young s' p')
    (hunique : Alone (w.setSession r s') (update φ r p')) :
    Orderly (w.setSession r s') (update φ r p') := by
  refine h.update (fun r' hr => by simp [hr]) h.keyed ?_ (fun hs => by simp at hs) hunique
  intro s hs
  obtain rfl : s' = s := by simpa using hs
  exact ⟨hgood, hfits, hyoung⟩

theorem at_setSession {x : Spot} (hx : At (w.setSession r s') (update φ r p') origin x) :
    (∃ k, x = .mine r k ∧ Mine s' p' k origin) ∨ (∀ k, x ≠ .mine r k) ∧ At w φ origin x := by
  cases x with
  | mine r' k =>
    obtain ⟨s, hs, hmine⟩ := hx
    rw [update_apply] at hmine
    by_cases hr : r' = r
    · subst hr
      obtain rfl : s' = s := by simpa using hs
      rw [if_pos rfl] at hmine
      exact .inl ⟨k, rfl, hmine⟩
    · rw [if_neg hr] at hmine
      refine .inr ⟨?_, s, by simpa [hr] using hs, hmine⟩
      rintro k' hk'
      exact hr (Spot.mine.inj hk').1
  | stored id k =>
    refine .inr ⟨?_, hx⟩
    exact nofun

variable {s : ServerSession}

theorem effect_of_shrinks (h : Orderly w φ) (hs : w.sessions r = some s)
    (hgood : (step.apply s).Good)
    (hfits : ((φ r).next (.session step) s).Fits (step.apply s)) (hshrinks : Shrinks s (φ r) step) :
    StepEffect w φ r (.session step) s (w.setSession r (step.apply s)) := by
  have hat : ∀ origin x, At (w.setSession r (step.apply s))
      (update φ r ((φ r).next (.session step) s)) origin x → At w φ origin x := by
    intro origin x hx
    rcases at_setSession hx with ⟨k, rfl, hmine⟩ | ⟨-, hx⟩
    · exact ⟨s, hs, hshrinks.mine k origin hmine⟩
    · exact hx
  refine ⟨?_, fun origin x hx => .inl ⟨x, hat origin x hx⟩, ?_⟩
  · exact orderly_setSession h hgood hfits hshrinks.young (h.alone hat)
  · intro origin hg
    obtain ⟨⟨k, hmine⟩, hnone⟩ := hshrinks.gives origin hg
    refine ⟨⟨.mine r k, s, hs, hmine⟩, ?_⟩
    intro x hx
    rcases at_setSession hx with ⟨k', rfl, hmine'⟩ | ⟨hne, hx⟩
    · exact hnone k' hmine'
    · exact hne k (h.unique origin x (.mine r k) hx ⟨s, hs, hmine⟩)

variable {v : Flashed}

theorem owned_flash {n : Nat} (h : Owned (apply s (.flash key v)) k n origin) :
    k = key ∧ v.origin = origin ∨ Owned s k n origin := by
  obtain ⟨hset, v', hv', horigin⟩ := h
  rcases FMap.lookup_of_insert hv' with ⟨rfl, rfl⟩ | ⟨hk, hv'⟩
  · exact .inl ⟨rfl, horigin⟩
  · exact .inr ⟨(AList.lookup_insert_ne hk).symm.trans hset, v', hv', horigin⟩

theorem mine_flash (h : Mine (apply s (.flash key v)) p k origin) :
    k = key ∧ v.origin = origin ∨ Mine s p k origin := by
  rcases h with ⟨n, howned, hcover⟩ | hpending
  · rcases owned_flash howned with hnew | howned
    · exact .inl hnew
    · exact .inr (.inl ⟨n, howned, hcover⟩)
  · exact .inr (.inr hpending)

theorem effect_flash (h : Orderly w φ) (hs : w.sessions r = some s)
    (hkey : Utf8.repair key = key) (hnew : ∀ x, ¬ At w φ v.origin x) :
    StepEffect w φ r (.session (.flash key v)) s (w.setSession r (apply s (.flash key v))) := by
  obtain ⟨hgood, hfits, hyoung⟩ := h.session r s hs
  have hphase : (φ r).next (.session (.flash key v)) s = φ r := by cases φ r <;> rfl
  rw [StepEffect, hphase]
  have hat : ∀ origin x, At (w.setSession r (apply s (.flash key v)))
      (update φ r (φ r)) origin x →
      x = .mine r key ∧ v.origin = origin ∨ At w φ origin x := by
    intro origin x hx
    rcases at_setSession hx with ⟨k, rfl, hmine⟩ | ⟨-, hx⟩
    · rcases mine_flash hmine with ⟨rfl, horigin⟩ | hmine
      · exact .inl ⟨rfl, horigin⟩
      · exact .inr ⟨s, hs, hmine⟩
    · exact .inr hx
  refine ⟨?_, ?_, fun _ hg => hg.elim⟩
  · refine orderly_setSession h (hgood.flash hkey v)
      (hfits.keep (fun hb => hb) rfl fun _ hflight => hflight.flash key v) ?_ ?_
    · intro id s₀ k n n₀ origin hp ho ho₀
      rcases owned_flash ho with ⟨-, rfl⟩ | ho
      · exact absurd ⟨s, hs, .inr ⟨id, s₀, n₀, hp, ho₀⟩⟩ (hnew (.mine r k))
      · exact hyoung id s₀ k n n₀ origin hp ho ho₀
    · intro origin x y hx hy
      rcases hat origin x hx with ⟨rfl, hv⟩ | hx
      · rcases hat origin y hy with ⟨rfl, -⟩ | hy
        · rfl
        · rw [← hv] at hy
          exact absurd hy (hnew y)
      · rcases hat origin y hy with ⟨rfl, hv⟩ | hy
        · rw [← hv] at hx
          exact absurd hx (hnew x)
        · exact h.unique origin x y hx hy
  · intro origin x hx
    rcases hat origin x hx with ⟨-, hv⟩ | hx
    · exact .inr hv
    · exact .inl ⟨x, hx⟩

theorem good_of_loaded (h : free (.hold s)) : s.Good := by
  obtain ⟨hsettled, hown, -, stored, payload, hdecode, hloaded, hflash⟩ := h
  have hread := (encodeRecordPayload_eq_some.mp hdecode).2
  refine ⟨hsettled, ?_, ?_, ?_⟩
  · rw [hown]
    exact nofun
  · rw [hflash]
    intro k v hv _
    obtain ⟨-, v₀, -, -, hv₀⟩ := lookup_rereadMap hread hv
    obtain ⟨-, hvalue⟩ := reread_eq_some.mp hv₀
    refine ⟨v, ?_, reread_eq_some.mpr ⟨rfl, Tree.reread_reread _ _ hvalue⟩⟩
    rw [ServerSession.loadedFlash, hloaded]
    exact hv
  · rw [hflash]
    intro k v hv
    exact repair_of_rereadMap hread hv

theorem effect_hold (h : Orderly w φ) (hs : w.sessions r = none) (hfree : free (.hold s)) :
    StepEffect w φ r (.hold s) () (w.setSession r s) := by
  have hidle := h.unloaded r hs
  have hphase : (φ r).next (.hold s) () = .idle := by rw [hidle]; rfl
  rw [StepEffect, hphase]
  have hat : ∀ origin x, At (w.setSession r s) (update φ r .idle) origin x → At w φ origin x := by
    intro origin x hx
    rcases at_setSession hx with ⟨k, rfl, ⟨n, ho, -⟩ | ⟨id, s₀, n, hp, -⟩⟩ | ⟨-, hx⟩
    · have hset := ho.set
      rw [hfree.2.1] at hset
      cases hset
    · cases hp
    · exact hx
  refine ⟨?_, fun origin x hx => .inl ⟨x, hat origin x hx⟩, fun _ hg => hg.elim⟩
  refine orderly_setSession h (good_of_loaded hfree) trivial ?_ (h.alone hat)
  exact nofun

theorem effect_of_fewer_records (h : Orderly w φ) {res : RequestRes o} {m : Records}
    (hsub : ∀ id rec, m.byID.lookup id = some rec → w.records.byID.lookup id = some rec)
    (hphase : (φ r).next o res = φ r ∨ ∃ id update, φ r = .turn id ∧ (φ r).next o res = .took id update)
    (hgives : ∀ origin, ¬ Gives origin o res) : StepEffect w φ r o res { w with records := m } := by
  have hmine : ∀ s k origin, Mine s ((φ r).next o res) k origin → Mine s (φ r) k origin := by
    intro s k origin hmine
    rcases hphase with hsame | ⟨id, update, hturn, htook⟩
    · rw [hsame] at hmine
      exact hmine
    · rw [htook] at hmine
      rw [hturn]
      rcases hmine with ⟨n, ho, -⟩ | ⟨id', s₀, n, hp, -⟩
      · exact .inl ⟨n, ho, rfl⟩
      · cases hp
  have hat : ∀ origin x, At { w with records := m } (update φ r ((φ r).next o res)) origin x →
      At w φ origin x := by
    intro origin x hx
    cases x with
    | mine r' k =>
      obtain ⟨s, hs, hx⟩ := hx
      rw [update_apply] at hx
      by_cases hr : r' = r
      · subst hr
        rw [if_pos rfl] at hx
        exact ⟨s, hs, hmine s k origin hx⟩
      · rw [if_neg hr] at hx
        exact ⟨s, hs, hx⟩
    | stored id k =>
      obtain ⟨rec, v, hrec, hv⟩ := hx
      exact ⟨rec, v, hsub id rec hrec, hv⟩
  refine ⟨?_, fun origin x hx => .inl ⟨x, hat origin x hx⟩, fun origin hg => absurd hg (hgives origin)⟩
  refine h.update (fun _ _ => rfl) (fun id rec hrec => h.keyed id rec (hsub id rec hrec)) ?_ ?_
    (h.alone hat)
  · intro s hs
    obtain ⟨hgood, hfits, hyoung⟩ := h.session r s hs
    rcases hphase with hsame | ⟨id, update, hturn, htook⟩
    · rw [hsame]
      exact ⟨hgood, hfits, hyoung⟩
    · rw [hturn] at hfits
      rw [htook]
      refine ⟨hgood, hfits, ?_⟩
      exact nofun
  · intro hs
    have hidle := h.unloaded r hs
    rcases hphase with hsame | ⟨id, -, hturn, -⟩
    · rw [hsame]
      exact hidle
    · rw [hidle] at hturn
      cases hturn

/-- The flash of the record comes out of the record, or out of the save that wrote it. -/
structure Wrote (w : Requests) (φ : Nat → Phase) (r : Nat) (id : Bytes)
    (rec : SessionRecord) (data : RecordPayload) (p' : Phase) : Prop where
  held : w.records.byID.lookup id = some rec
  flash : ∀ k v, data.flash.lookup k = some v → rec.data.flash.lookup k = some v ∨
    ∃ id' s₀ n, φ r = .snapped id' s₀ ∧ Owned s₀ k n v.origin
  mine : ∀ s k origin, Mine s p' k origin → ∃ n, Owned s k n origin ∧ (φ r).covers n = false ∧
    ∀ id' s₀, φ r = .snapped id' s₀ → s₀.seq < n
  fits : ∀ s, (φ r).Fits s → p'.Fits s
  pending : ∀ id' s₀, p' ≠ .snapped id' s₀

variable {update : RecordPayload → Option RecordPayload} {lastSeen expiresAt : Int}
  {data : RecordPayload} {id : Bytes}

theorem effect_of_wrote (h : Orderly w φ) {rec rec' : SessionRecord}
    (hupdate : update rec.data = some data) (hwrote : Wrote w φ r id rec data p')
    (hs : w.sessions r = some s) (hid : rec'.id = rec.id) (hdata : rec'.data = data)
    (hphase : (φ r).next (.store (.updateData id update lastSeen expiresAt)) (.ok (), some rec.data) =
      p') : StepEffect w φ r (.store (.updateData id update lastSeen expiresAt))
      (.ok (), some rec.data) { w with records := w.records.insert rec' } := by
  have hkey : rec'.id = id := hid.trans (h.keyed id rec hwrote.held)
  rw [StepEffect, hphase]
  -- A value keeps its place, or goes from the snapshot of the save into the record.
  have hat : ∀ origin x,
      At { w with records := w.records.insert rec' } (Function.update φ r p') origin x →
      At w φ origin x ∧ (∀ k, x = .mine r k → ∀ id' s₀, φ r = .snapped id' s₀ →
        ∃ n, Owned s k n origin ∧ s₀.seq < n) ∨
      ∃ k id' s₀ n, x = .stored id k ∧ φ r = .snapped id' s₀ ∧ Owned s₀ k n origin := by
    intro origin x hx
    cases x with
    | mine r' k =>
      obtain ⟨s', hs', hx⟩ := hx
      rw [update_apply] at hx
      by_cases hr : r' = r
      · subst hr
        obtain rfl : s' = s := Option.some.inj (hs'.symm.trans hs)
        rw [if_pos rfl] at hx
        obtain ⟨n, ho, hcover, hlate⟩ := hwrote.mine s' k origin hx
        refine .inl ⟨⟨s', hs, .inl ⟨n, ho, hcover⟩⟩, ?_⟩
        intro k' hk' id' s₀ hp
        obtain ⟨-, rfl⟩ := Spot.mine.inj hk'
        exact ⟨n, ho, hlate id' s₀ hp⟩
      · rw [if_neg hr] at hx
        refine .inl ⟨⟨s', hs', hx⟩, ?_⟩
        intro k' hk'
        exact absurd (Spot.mine.inj hk').1 hr
    | stored id' k =>
      obtain ⟨rec₁, v, hrec₁, hv, horigin⟩ := hx
      rw [lookup_insert, hkey] at hrec₁
      by_cases hid' : id' = id
      · rw [if_pos hid'] at hrec₁
        obtain rfl := Option.some.inj hrec₁
        rw [hdata] at hv
        rcases hwrote.flash k v hv with hold | ⟨id'', s₀, n, hp, ho⟩
        · refine .inl ⟨⟨rec, v, by rw [hid']; exact hwrote.held, hold, horigin⟩, ?_⟩
          exact nofun
        · rw [horigin] at ho
          exact .inr ⟨k, id'', s₀, n, by rw [hid'], hp, ho⟩
      · rw [if_neg hid'] at hrec₁
        refine .inl ⟨⟨rec₁, v, hrec₁, hv, horigin⟩, ?_⟩
        exact nofun
  have hpending : ∀ {origin k id' s₀ n}, φ r = .snapped id' s₀ → Owned s₀ k n origin →
      At w φ origin (.mine r k) := fun hp ho => ⟨s, hs, .inr ⟨_, _, _, hp, ho⟩⟩
  refine ⟨?_, ?_, ?_⟩
  · refine h.update (fun _ _ => rfl) ?_ ?_ ?_ ?_
    · intro id' rec₁ hrec₁
      rw [lookup_insert, hkey] at hrec₁
      split at hrec₁
      case isTrue hid' =>
        rw [hid', ← Option.some.inj hrec₁]
        exact hkey
      case isFalse => exact h.keyed id' rec₁ hrec₁
    · intro s' hs'
      obtain ⟨hgood, hfits, -⟩ := h.session r s' hs'
      refine ⟨hgood, hwrote.fits s' hfits, ?_⟩
      intro id' s₀ k n n₀ origin hp
      exact absurd hp (hwrote.pending id' s₀)
    · intro hnone
      rw [hs] at hnone
      cases hnone
    · have hmixed : ∀ origin x k id' s₀ n, At w φ origin x →
          (∀ k, x = .mine r k → ∀ id' s₀, φ r = .snapped id' s₀ → ∃ n, Owned s k n origin ∧ s₀.seq < n) →
          φ r = .snapped id' s₀ → Owned s₀ k n origin → False := by
        intro origin x k id' s₀ n hx hlate hp ho
        obtain rfl := h.unique origin x (.mine r k) hx (hpending hp ho)
        obtain ⟨n', ho', hlt⟩ := hlate k rfl id' s₀ hp
        have hle := (h.session r s hs).2.2 id' s₀ k n' n origin hp ho' ho
        omega
      intro origin x y hx hy
      rcases hat origin x hx with ⟨hx, hlate⟩ | ⟨k, id', s₀, n, rfl, hp, ho⟩
      · rcases hat origin y hy with ⟨hy, -⟩ | ⟨k, id', s₀, n, -, hp, ho⟩
        · exact h.unique origin x y hx hy
        · exact (hmixed origin x k id' s₀ n hx hlate hp ho).elim
      · rcases hat origin y hy with ⟨hy, hlate⟩ | ⟨k', id'', s₁, n', rfl, hp', ho'⟩
        · exact (hmixed origin y k id' s₀ n hy hlate hp ho).elim
        · have hk := h.unique origin _ _ (hpending hp ho) (hpending hp' ho')
          obtain ⟨-, rfl⟩ := Spot.mine.inj hk
          rfl
  · intro origin x hx
    rcases hat origin x hx with ⟨hx, -⟩ | ⟨k, id', s₀, n, -, hp, ho⟩
    · exact .inl ⟨x, hx⟩
    · exact .inl ⟨_, hpending hp ho⟩
  · rintro origin ⟨k, v, data', hv, horigin, hdata', hgone⟩
    have hstored : At w φ origin (.stored id k) := ⟨_, _, hwrote.held, hv, horigin⟩
    refine ⟨⟨_, hstored⟩, ?_⟩
    intro x hx
    rcases hat origin x hx with ⟨hold, -⟩ | ⟨k', id', s₀, n, -, hp, ho⟩
    · obtain rfl := h.unique origin x _ hold hstored
      obtain ⟨rec₁, v₁, hrec₁, hv₁, -⟩ := hx
      rw [lookup_insert, hkey, if_pos rfl] at hrec₁
      obtain rfl := Option.some.inj hrec₁
      obtain rfl : data' = data := Option.some.inj (hdata'.symm.trans hupdate)
      rw [hdata, hgone] at hv₁
      cases hv₁
    · cases h.unique origin _ _ (hpending hp ho) hstored

variable {rec : SessionRecord}

theorem wrote_of_consume {id : Bytes} (hturn : φ r = .turn id')
    (htake : (∃ key, update = consumeUpdate (takeOne key)) ∨ update = consumeUpdate takeAll)
    (hheld : w.records.byID.lookup id = some rec)
    (hupdate : update rec.data = some data) : Wrote w φ r id rec data (.took id' update) := by
  refine ⟨hheld, ?_, ?_, ?_, ?_⟩
  · intro k v hv
    left
    rcases htake with ⟨key, rfl⟩ | rfl
    · rw [consumeUpdate, Option.map_eq_some_iff] at hupdate
      obtain ⟨f, hf, rfl⟩ := hupdate
      rw [takeOne] at hf
      split at hf
      · obtain rfl := Option.some.inj hf
        exact (FMap.lookup_of_erase hv).2
      · cases hf
    · rw [consumeUpdate, Option.map_eq_some_iff] at hupdate
      obtain ⟨f, hf, rfl⟩ := hupdate
      rw [takeAll] at hf
      split at hf
      · cases hf
      · obtain rfl := Option.some.inj hf
        cases hv
  · rintro s k origin (⟨n, ho, -⟩ | ⟨id'', s₀, n, hp, -⟩)
    · refine ⟨n, ho, by rw [hturn]; rfl, ?_⟩
      intro id'' s₀ hp
      rw [hturn] at hp
      cases hp
    · cases hp
  · intro s hfits
    rw [hturn] at hfits
    exact hfits
  · intro id'' s₀ hp
    cases hp

theorem lookup_mergeUpdate (hs₀ : s₀.Good) {base current : RecordPayload}
    (hbase : s₀.loaded = some base) (hflash : rereadMap reread s₀.flash = some payload.flash)
    (h : (mergeUpdate base payload s₀.flashLocal.keys current).flash.lookup k = some v) :
    (∃ n, Owned s₀ k n v.origin) ∨ current.flash.lookup k = some v := by
  have hread : ∀ v', payload.flash.lookup k = some v' →
      ∃ v₀, s₀.flash.lookup k = some v₀ ∧ v₀.reread = some v' := by
    intro v' hv'
    obtain ⟨k₀, v₀, hv₀, hk₀, hr⟩ := lookup_rereadMap hflash hv'
    obtain rfl : k₀ = k := (hs₀.valid k₀ v₀ hv₀).symm.trans hk₀
    exact ⟨v₀, hv₀, hr⟩
  simp only [mergeUpdate, FMap.lookup_overlay] at h
  cases hnow : payload.flash.lookup k with
  | none =>
    rw [hnow, lookup_applyChanges, hnow] at h
    simp only at h
    split at h
    · cases h
    · exact .inr h
  | some v' =>
    obtain ⟨v₀, hv₀, hr⟩ := hread v' hnow
    have horigin : v'.origin = v₀.origin := (reread_eq_some.mp hr).1
    cases hown : s₀.flashLocal.lookup k with
    | some n =>
      have hmem : k ∈ s₀.flashLocal.keys := AList.lookup_isSome.mp (by rw [hown]; rfl)
      rw [hnow, Option.filter_some, if_pos (by simpa using hmem)] at h
      obtain rfl := Option.some.inj h
      exact .inl ⟨n, hown, v₀, hv₀, horigin.symm⟩
    | none =>
      have hmem : k ∉ s₀.flashLocal.keys := by
        intro hmem
        have := AList.lookup_isSome.mpr hmem
        rw [hown] at this
        cases this
      rw [hnow, Option.filter_some, if_neg (by simpa using hmem)] at h
      -- The request has the value from the record, so it stands in the base.
      obtain ⟨vb, hvb, hrb⟩ := hs₀.based k v₀ hv₀ hown
      obtain rfl : v' = vb := Option.some.inj (hr.symm.trans hrb)
      rw [ServerSession.loadedFlash, hbase] at hvb
      rw [lookup_applyChanges_of_same (by simp [same])] at h
      · exact .inr h
      · rw [hnow]
        exact hvb.symm

theorem wrote_of_save {id : Bytes} (hsnapped : φ r = .snapped id' s₀)
    (hs₀ : s₀.Good) (hsaves : SavesAs s₀ payload update)
    (hheld : w.records.byID.lookup id = some rec)
    (hupdate : update rec.data = some data) : Wrote w φ r id rec data (.wrote id' s₀ update) := by
  obtain ⟨hflash, base, hbase, rfl⟩ := hsaves
  refine ⟨hheld, ?_, ?_, ?_, ?_⟩
  · intro k v hv
    obtain rfl := Option.some.inj hupdate
    rcases lookup_mergeUpdate hs₀ hbase hflash hv with ⟨n, ho⟩ | hold
    · exact .inr ⟨id', s₀, n, hsnapped, ho⟩
    · exact .inl hold
  · rintro s k origin (⟨n, ho, hcover⟩ | ⟨id'', s₁, n, hp, -⟩)
    · refine ⟨n, ho, by rw [hsnapped]; rfl, ?_⟩
      intro id'' s₁ hp
      rw [hsnapped] at hp
      obtain ⟨-, rfl⟩ := snapped.inj hp
      simp only [covers, decide_eq_false_iff_not] at hcover
      omega
    · cases hp
  · intro s hfits
    rw [hsnapped] at hfits
    exact hfits
  · intro id'' s₁ hp
    cases hp

variable (h : Orderly w φ)

include h

theorem effect_unloaded (hs : w.sessions r = none) (step : SessionStep) :
    StepEffect w φ r (.session step) .unloaded w := by
  apply effect_of_same h
  · rw [h.unloaded r hs]
    cases step <;> rfl
  · intro origin hg
    cases step with
    | takeFlash id key =>
      obtain ⟨-, v, hv, -⟩ := hg
      cases hv
    | flushFlash id =>
      obtain ⟨-, k, v, hv, -⟩ := hg
      cases hv
    | adoptFlushed id =>
      obtain ⟨k, v, -, hv, -⟩ := hg
      cases hv
    | _ => exact hg

theorem effect_session (hs : w.sessions r = some s)
    (hlaw : Permitted (φ r) (.session step))
    (hset : ∀ key v, step = .flash key v → Utf8.repair key = key ∧ ∀ x, ¬ At w φ v.origin x)
    (hquiet : Undisturbed ((φ r).snapshot.map ServerSession.seq) (.session step) s) :
    StepEffect w φ r (.session step) s (w.setSession r (step.apply s)) := by
  obtain ⟨hgood, hfits, hyoung⟩ := h.session r s hs
  cases hisSet : isSet (.session step) with
  | true =>
    cases step with
    | flash key v =>
      obtain ⟨hkey, hnew⟩ := hset key v rfl
      exact effect_flash h hs hkey hnew
    | _ => cases hisSet
  | false =>
    have hunique : Unshared s (φ r) := by
      intro k k' origin hk hk'
      exact (Spot.mine.inj (h.unique origin _ _ ⟨s, hs, hk⟩ ⟨s, hs, hk'⟩)).2
    obtain ⟨hgood', hfits'⟩ := session_step hgood hfits hlaw fun key v hstep => (hset key v hstep).1
    exact effect_of_shrinks h hs hgood' hfits'
      (session_shrinks hgood hfits hyoung hlaw hisSet hquiet hunique)

def Replacing : StoreOp RecordPayload → Prop
  | .put _ | .delete _ | .deleteAllForUser _ => True
  | _ => False

theorem not_permitted_store {so : StoreOp RecordPayload} (hso : Replacing so) :
    ¬ Permitted (φ r) (.store so) := by
  have hastray := h.ne_astray r
  rintro (hfree | hmay)
  · cases so <;> first | exact hfree | exact hso
  · cases hp : φ r with
    | astray => exact hastray hp
    | _ =>
      rw [hp] at hmay
      cases so <;> first | exact hmay | exact hso

theorem permitted_updateData
    (hlaw : Permitted (φ r) (.store (.updateData id update lastSeen expiresAt))) :
    φ r = .turn id ∧ ((∃ key, update = consumeUpdate (takeOne key)) ∨ update = consumeUpdate takeAll) ∨
      ∃ s₀ payload, φ r = .snapped id s₀ ∧ SavesAs s₀ payload update := by
  have hastray := h.ne_astray r
  rcases hlaw with hfree | hmay
  · exact hfree.elim
  · cases hp : φ r with
    | astray => exact absurd hp hastray
    | turn id' =>
      rw [hp] at hmay
      obtain ⟨rfl, htake⟩ := hmay
      exact .inl ⟨rfl, htake⟩
    | snapped id' s₀ =>
      rw [hp] at hmay
      obtain ⟨rfl, payload, hsaves⟩ := hmay
      exact .inr ⟨s₀, payload, rfl, hsaves⟩
    | _ =>
      rw [hp] at hmay
      exact hmay.elim

theorem effect_updateData (now : Int)
    (ho : o = .store (.updateData id update lastSeen expiresAt)) (hlaw : Permitted (φ r) o) :
    StepEffect w φ r o (w.exec now (r, o)).1 (w.exec now (r, o)).2 := by
  subst ho
  have hphases := permitted_updateData h hlaw
  have hbusy : φ r ≠ .idle := by
    rcases hphases with ⟨hp, -⟩ | ⟨s₀, payload, hp, -⟩ <;> simp [hp]
  obtain ⟨s, hs⟩ := h.loaded hbusy
  rcases w.records.updateData_cases now id update lastSeen expiresAt with
    ⟨rec, data, seen, expires, hlive, hupdate, heq⟩ | ⟨e, herr, hsub⟩
  · have hexec : w.exec now (r, .store (.updateData id update lastSeen expiresAt)) =
        ((.ok (), some rec.data), { w with records := (w.records.insert
          { rec with data := data, lastSeenAt := seen, expiresAt := expires }) }) := by
      simp [Requests.exec, exec, heq, hlive]
    have hheld := (live_eq_some.mp hlive).1
    rw [hexec]
    rcases hphases with ⟨hp, htake⟩ | ⟨s₀, payload, hp, hsaves⟩
    · exact effect_of_wrote h hupdate (wrote_of_consume hp htake hheld hupdate) hs rfl rfl
        (by rw [hp]; rfl)
    · have hfits := (h.session r s hs).2.1
      rw [hp] at hfits
      exact effect_of_wrote h hupdate (wrote_of_save hp hfits.2.2.good hsaves hheld hupdate) hs rfl rfl
        (by rw [hp]; rfl)
  · have hexec : w.exec now (r, .store (.updateData id update lastSeen expiresAt)) =
        ((.error e, (w.records.live now id).map StoredSession.data),
          { w with records := (w.records.updateData now id update lastSeen expiresAt).2 }) := by
      simp [Requests.exec, exec, herr]
    rw [hexec]
    refine effect_of_fewer_records h hsub ?_ fun _ hg => hg
    rcases hphases with ⟨hp, -⟩ | ⟨s₀, -, hp, -⟩
    · rw [hp]
      cases e with
      | update => exact .inr ⟨id, update, rfl, rfl⟩
      | _ => exact .inl rfl
    · rw [hp]
      exact .inl rfl

theorem effect_step (now : Int) (o : RequestOp) (hlaw : Permitted (φ r) o)
    (hset : ∀ key v, o = .session (.flash key v) → Utf8.repair key = key ∧ ∀ x, ¬ At w φ v.origin x)
    (hquiet : Undisturbed ((φ r).snapshot.map ServerSession.seq) o (w.exec now (r, o)).1) :
    StepEffect w φ r o (w.exec now (r, o)).1 (w.exec now (r, o)).2 := by
  cases o with
  | session step =>
    cases hs : w.sessions r with
    | none =>
      have hexec : w.exec now (r, .session step) = (.unloaded, w) := by simp only [Requests.exec, hs]
      rw [hexec]
      exact effect_unloaded h hs step
    | some s =>
      have hexec : w.exec now (r, .session step) = (s, w.setSession r (step.apply s)) := by
        simp only [Requests.exec, hs]
      rw [hexec] at hquiet ⊢
      exact effect_session h hs hlaw (fun key v hstep => hset key v (by rw [hstep])) hquiet
  | store so =>
    cases so with
    | updateData id update lastSeen expiresAt => exact effect_updateData h now rfl hlaw
    | get id =>
      refine effect_of_fewer_records h ?_ (.inl (by cases φ r <;> rfl)) fun _ hg => hg
      intro k rec hrec
      exact lookup_of_find_held hrec
    | deleteIf id cond =>
      refine effect_of_fewer_records h ?_ (.inl (by cases φ r <;> rfl)) fun _ hg => hg
      intro k rec hrec
      exact lookup_of_deleteIf hrec
    | _ => exact absurd hlaw (not_permitted_store h (by trivial))
  | clock => exact effect_of_same h (by cases φ r <;> rfl) fun _ hg => hg
  | hold s =>
    have hfree : free (.hold s) := by
      rcases hlaw with hfree | hmay
      · exact hfree
      · cases hp : φ r with
        | astray => exact absurd hp (h.ne_astray r)
        | _ =>
          rw [hp] at hmay
          exact hmay.elim
    cases hs : w.sessions r with
    | none =>
      have hexec : w.exec now (r, .hold s) = ((), w.setSession r s) := by simp only [Requests.exec, hs]
      rw [hexec]
      exact effect_hold h hs hfree
    | some s' =>
      have hexec : w.exec now (r, .hold s) = ((), w) := by simp only [Requests.exec, hs]
      rw [hexec]
      exact effect_of_same h (by cases φ r <;> rfl) fun _ hg => hg

end Steps

def Given (l : Log ServedRes) (origin : Nat) : Prop := ∃ ev ∈ l, Gives origin ev.op.2 ev.res

def Born (records : Records) (l : Log ServedRes) (origin : Nat) : Prop :=
  (∃ id k, Stored ⟨records, fun _ => none⟩ origin id k) ∨ ∃ ev ∈ l, Sets origin ev.op.2

structure Delivered (records : Records) (w : Requests) (l : Log ServedRes) :
    Prop where
  orderly : Orderly w (phaseOf l)
  saving : ∀ r s₀, (phaseOf l r).snapshot = some s₀ → savingOf l r = some s₀.seq
  spent : ∀ origin, Given l origin → ∀ x, ¬ At w (phaseOf l) origin x
  born : ∀ origin x, At w (phaseOf l) origin x → Born records l origin
  given : ∀ origin, Given l origin → Born records l origin
  once : EachAfter (fun pre ev => ∀ origin, Gives origin ev.op.2 ev.res → ¬ Given pre origin) l

theorem given_concat {l : Log ServedRes} :
    Given (l ++ [ev]) origin ↔ Given l origin ∨ Gives origin ev.op.2 ev.res := by
  simp [Given, or_and_right, exists_or]

theorem born_concat {records : Records} {l : Log ServedRes}
    : Born records (l ++ [ev]) origin ↔ Born records l origin ∨ Sets origin ev.op.2 := by
  simp [Born, or_and_right, exists_or, or_assoc]

theorem phaseOf_concat (l : Log ServedRes) (ev : Event ServedRes) :
    phaseOf (l ++ [ev]) = update (phaseOf l) ev.op.1
      ((phaseOf l ev.op.1).next ev.op.2 ev.res) :=
  historyOf_concat next .idle l ev

theorem snapshot_of_next {o : RequestOp} {res : RequestRes o} (ho : o ≠ .session .saveBase)
    (h : (p.next o res).snapshot = some s₀) : p.snapshot = some s₀ := by
  have hseen : ∀ (q : Phase) id s, (q.seen id s).snapshot = some s₀ → q.snapshot = some s₀ := by
    intro q id s hq
    rw [seen] at hq
    split at hq
    · exact hq
    · cases hq
  unfold next at h
  split at h
  case h_1 => exact h
  case h_2 =>
    split at h
    · exact h
    · cases hseen _ _ _ h
  case h_3 => exact hseen _ _ _ h
  case h_4 => exact hseen _ _ _ h
  case h_5 => exact absurd rfl ho
  case h_6 =>
    split at h <;> cases h
  case h_7 =>
    split at h <;> exact h
  all_goals first | exact h | cases h

theorem saving_next {m : Option Nat} (hp : ∀ s₀, p.snapshot = some s₀ → m = some s₀.seq)
    (hastray : p ≠ .astray) {o : RequestOp} (hlaw : Permitted p o) (res : RequestRes o)
    (h : (p.next o res).snapshot = some s₀) : nextSaving m o res = some s₀.seq := by
  by_cases hbase : o = .session .saveBase
  · subst hbase
    rcases hlaw with hfree | hmay
    · exact hfree.elim
    · cases p with
      | turn id =>
        change ((snapped id res).seen id res).snapshot = some s₀ at h
        rw [seen] at h
        split at h
        · obtain rfl := Option.some.inj h
          rfl
        · cases h
      | astray => exact absurd rfl hastray
      | _ => exact hmay.elim
  · have hm := hp s₀ (snapshot_of_next hbase h)
    by_cases hend : o = .session .endTurn
    · subst hend
      rcases hlaw with hfree | hmay
      · exact hfree.elim
      · cases p with
        | turn id => cases h
        | snapped id s₁ => cases h
        | astray => exact absurd rfl hastray
        | _ => exact hmay.elim
    · have hsame : nextSaving m o res = m := by
        unfold nextSaving
        split
        · exact absurd rfl hbase
        · exact absurd rfl hend
        · rfl
      rw [hsame]
      exact hm

theorem undisturbed_none (o : RequestOp) (res : RequestRes o) : Undisturbed none o res := by
  unfold Undisturbed
  split
  · exact nofun
  · exact nofun
  · trivial

section Delivered

variable {records : Records} {w : Requests} {l : Log ServedRes} {r : Nat}

variable (h : Delivered records w l) (now : Int) {o : RequestOp} (hlaw : Permitted (phaseOf l r) o)
  (hset : ∀ key v, o = .session (.flash key v) → Utf8.repair key = key ∧ ¬ Born records l v.origin)
  (hquiet : Undisturbed (savingOf l r) o (w.exec now (r, o)).1)

include h hlaw hset hquiet

theorem Delivered.effect :
    StepEffect w (phaseOf l) r o (w.exec now (r, o)).1 (w.exec now (r, o)).2 := by
  refine effect_step h.orderly now o hlaw ?_ ?_
  · intro key v ho
    obtain ⟨hkey, hnew⟩ := hset key v ho
    exact ⟨hkey, fun x hx => hnew (h.born v.origin x hx)⟩
  · cases hsnap : (phaseOf l r).snapshot with
    | none => exact undisturbed_none o _
    | some s₀ =>
      rw [Option.map_some, ← h.saving r s₀ hsnap]
      exact hquiet

theorem delivered_step (i : Nat) :
    Delivered records (w.exec now (r, o)).2 (l ++ [⟨i, (r, o), (w.exec now (r, o)).1⟩]) := by
  have heffect := h.effect now hlaw hset hquiet
  have hphase := phaseOf_concat l ⟨i, (r, o), (w.exec now (r, o)).1⟩
  have hcame : ∀ origin x, At (w.exec now (r, o)).2
      (phaseOf (l ++ [⟨i, (r, o), (w.exec now (r, o)).1⟩])) origin x →
      (∃ x', At w (phaseOf l) origin x') ∨ Sets origin o := by
    rw [hphase]
    exact heffect.came
  have hnew : ∀ origin, Sets origin o → ¬ Born records l origin := by
    intro origin hsets
    cases o with
    | session step =>
      cases step with
      | flash key v =>
        obtain rfl : v.origin = origin := hsets
        exact (hset key v rfl).2
      | _ => exact hsets.elim
    | _ => exact hsets.elim
  refine ⟨by rw [hphase]; exact heffect.orderly, ?_, ?_, ?_, ?_, ?_⟩
  · intro r' s₀ hsnap
    rw [hphase, update_apply] at hsnap
    rw [savingOf, historyOf_concat, update_apply]
    by_cases hr : r' = r
    · subst hr
      rw [if_pos rfl] at hsnap ⊢
      exact saving_next (h.saving r') (h.orderly.ne_astray r') hlaw _ hsnap
    · rw [if_neg hr] at hsnap ⊢
      exact h.saving r' s₀ hsnap
  · intro origin hgiven x hx
    rcases given_concat.mp hgiven with hold | hgives
    · rcases hcame origin x hx with ⟨x', hx'⟩ | hsets
      · exact h.spent origin hold x' hx'
      · exact hnew origin hsets (h.given origin hold)
    · rw [hphase] at hx
      exact (heffect.gives origin hgives).2 x hx
  · intro origin x hx
    rw [born_concat]
    rcases hcame origin x hx with ⟨x', hx'⟩ | hsets
    · exact .inl (h.born origin x' hx')
    · exact .inr hsets
  · intro origin hgiven
    rw [born_concat]
    rcases given_concat.mp hgiven with hold | hgives
    · exact .inl (h.given origin hold)
    · obtain ⟨⟨x, hx⟩, -⟩ := heffect.gives origin hgives
      exact .inl (h.born origin x hx)
  · refine eachAfter_concat.mpr ⟨h.once, ?_⟩
    intro origin hgives hold
    obtain ⟨⟨x, hx⟩, -⟩ := heffect.gives origin hgives
    exact h.spent origin hold x hx

end Delivered

end Session
