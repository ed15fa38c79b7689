import Endmark.Proofs.Types.Order
import Endmark.Typed.Tables

/-!
# Bounds of types

Where the type of faults is no part of them, types are joined to the least type above them, and have
no join just when nothing lies above them all.  So it does not matter in which order a place is
given types.
-/

namespace Endmark.Ty

mutual

theorem join_comm : ∀ a b : Ty, a.join b = b.join a
  | .list a, b => by
    cases b with
    | list b => rw [join_list, join_list, join_comm a b]
    | _ => simp [join]
  | .function ps r, b => by
    cases b with
    | function qs s => rw [join, join, joinAll_comm ps qs, join_comm r s]
    | _ => simp [join]
  | .int, b | .float, b | .bool, b | .str, b | .unknown, b | .error, b => by
    cases b <;> simp [join]

theorem joinAll_comm : ∀ as bs : List Ty, joinAll as bs = joinAll bs as
  | [], [] => rfl
  | [], _ :: _ | _ :: _, [] => rfl
  | a :: as, b :: bs => by rw [joinAll, joinAll, join_comm a b, joinAll_comm as bs]

end

/-- Types that lie above each other are the same. -/
theorem fits_antisymm {b : Ty} (h : a.fits b = true) (h' : b.fits a = true) :
  a = b
  := by
  rw [fits_iff] at h h'
  rw [join_comm, h'] at h
  exact (Option.some.inj h).symm

mutual

/-- Types without faults have joins without faults. -/
theorem isWhole_join : ∀ {a b c : Ty}, a.join b = some c → a.isWhole = true → b.isWhole = true →
    c.isWhole = true
  | .unknown, _, _, h, _, hb => by
    rw [join_unknown_left] at h
    cases h
    exact hb
  | .list a, b, _, h, ha, hb => by
    cases b with
    | list b =>
      obtain ⟨c, hc, rfl⟩ := Option.map_eq_some_iff.mp h
      exact isWhole_join (a := a) (b := b) (c := c) hc ha hb
    | error => cases hb
    | _ => cases h <;> exact ha
  | .function ps r, b, _, h, ha, hb => by
    cases b with
    | function qs s =>
      obtain ⟨ts, u, hts, hu, rfl⟩ := join_function_eq_some.mp h
      obtain ⟨hps, hr⟩ := Bool.and_eq_true_iff.mp ha
      obtain ⟨hqs, hs⟩ := Bool.and_eq_true_iff.mp hb
      exact Bool.and_eq_true_iff.mpr ⟨allWhole_joinAll hts hps hqs, isWhole_join hu hr hs⟩
    | error => cases hb
    | _ => cases h <;> exact ha
  | .int, b, c, h, _, hb | .float, b, c, h, _, hb | .bool, b, c, h, _, hb
  | .str, b, c, h, _, hb => by
    cases b with
    | error => cases hb
    | _ => simp [join] at h <;> simp [← h, isWhole]

theorem allWhole_joinAll : ∀ {as bs cs : List Ty}, joinAll as bs = some cs → allWhole as = true →
    allWhole bs = true → allWhole cs = true
  | [], [], _, h, _, _ => by
    cases h
    rfl
  | [], _ :: _, _, h, _, _ | _ :: _, [], _, h, _, _ => by cases h
  | a :: as, b :: bs, _, h, ha, hb => by
    obtain ⟨c, cs, hc, hcs, rfl⟩ := joinAll_cons_eq_some.mp h
    obtain ⟨ha, has⟩ := Bool.and_eq_true_iff.mp ha
    obtain ⟨hb, hbs⟩ := Bool.and_eq_true_iff.mp hb
    exact Bool.and_eq_true_iff.mpr ⟨isWhole_join hc ha hb, allWhole_joinAll hcs has hbs⟩

end

mutual

/-- Two types below one without faults have a join there. -/
theorem exists_join_of_fits : ∀ {u a b : Ty}, u.isWhole = true → u.fits a = true →
    u.fits b = true → ∃ c, a.join b = some c ∧ u.fits c = true
  | .unknown, _, b, _, ha, hb => by
    rw [unknown_fits_iff.mp ha]
    exact ⟨b, join_unknown_left, hb⟩
  | .list u, _, b, hu, ha, hb => by
    obtain rfl | ⟨a, rfl, ha'⟩ := list_fits_iff.mp ha
    · exact ⟨b, join_unknown_left, hb⟩
    obtain rfl | ⟨b, rfl, hb'⟩ := list_fits_iff.mp hb
    · exact ⟨_, join_unknown_right, ha⟩
    obtain ⟨c, hc, huc⟩ := exists_join_of_fits (u := u) hu ha' hb'
    refine ⟨.list c, ?_, list_fits_iff.mpr (.inr ⟨c, rfl, huc⟩)⟩
    rw [join_list, hc, Option.map_some]
  | .function ps r, _, b, hu, ha, hb => by
    obtain ⟨hps, hr⟩ := Bool.and_eq_true_iff.mp hu
    obtain rfl | ⟨as, a, rfl, has, ha'⟩ := function_fits_iff.mp ha
    · exact ⟨b, join_unknown_left, hb⟩
    obtain rfl | ⟨bs, b, rfl, hbs, hb'⟩ := function_fits_iff.mp hb
    · exact ⟨_, join_unknown_right, ha⟩
    obtain ⟨cs, hcs, hpcs⟩ := exists_joinAll_of_fits hps has hbs
    obtain ⟨c, hc, hrc⟩ := exists_join_of_fits hr ha' hb'
    refine ⟨.function cs c, join_function_eq_some.mpr ⟨cs, c, hcs, hc, rfl⟩, ?_⟩
    exact function_fits_iff.mpr (.inr ⟨cs, c, rfl, hpcs, hrc⟩)
  | .int, _, b, _, ha, hb | .float, _, b, _, ha, hb | .bool, _, b, _, ha, hb
  | .str, _, b, _, ha, hb => by
    obtain rfl | rfl := (fits_iff_of_isBasic rfl).mp ha
    · exact ⟨b, join_unknown_left, hb⟩
    obtain rfl | rfl := (fits_iff_of_isBasic rfl).mp hb
    · exact ⟨_, join_unknown_right, ha⟩
    · exact ⟨_, join_self _, ha⟩

theorem exists_joinAll_of_fits : ∀ {us as bs : List Ty}, allWhole us = true →
    joinAll us as = some us → joinAll us bs = some us →
      ∃ cs, joinAll as bs = some cs ∧ joinAll us cs = some us
  | [], [], [], _, _, _ => ⟨[], rfl, rfl⟩
  | [], _ :: _, _, _, h, _ | [], _, _ :: _, _, _, h | _ :: _, [], _, _, h, _
  | _ :: _, _, [], _, _, h => by cases h
  | u :: us, a :: as, b :: bs, hu, ha, hb => by
    obtain ⟨hu, hus⟩ := Bool.and_eq_true_iff.mp hu
    obtain ⟨_, _, ha, has, ⟨⟩⟩ := joinAll_cons_eq_some.mp ha
    obtain ⟨_, _, hb, hbs, ⟨⟩⟩ := joinAll_cons_eq_some.mp hb
    obtain ⟨c, hc, huc⟩ := exists_join_of_fits hu (fits_iff.mpr ha) (fits_iff.mpr hb)
    obtain ⟨cs, hcs, huscs⟩ := exists_joinAll_of_fits hus has hbs
    refine ⟨c :: cs, joinAll_cons_eq_some.mpr ⟨c, cs, hc, hcs, rfl⟩, ?_⟩
    exact joinAll_cons_eq_some.mpr ⟨u, us, fits_iff.mp huc, huscs, rfl⟩

end

/-- The type has no faults and lies above both. -/
def Bounds (u a b : Ty) : Prop :=
  u.isWhole = true ∧ u.fits a = true ∧ u.fits b = true

section

variable {a b : Ty} (ha : a.isWhole = true) (hb : b.isWhole = true)

include ha hb

/-- A join is the least upper bound. -/
theorem join_eq_some_iff :
  a.join b = some c ↔ Bounds c a b ∧ ∀ u, Bounds u a b → u.fits c = true
  := by
  constructor
  · intro h
    refine ⟨⟨isWhole_join h ha hb, fits_of_join h⟩, ?_⟩
    rintro u ⟨hu, hua, hub⟩
    obtain ⟨_, hc, hfits⟩ := exists_join_of_fits hu hua hub
    cases h.symm.trans hc
    exact hfits
  · rintro ⟨⟨hc, hca, hcb⟩, hleast⟩
    obtain ⟨d, hd, hfits⟩ := exists_join_of_fits hc hca hcb
    rw [hd, fits_antisymm hfits (hleast d ⟨isWhole_join hd ha hb, fits_of_join hd⟩)]

theorem join_eq_none_iff :
  a.join b = none ↔ ¬ ∃ u, Bounds u a b
  := by
  rw [← not_iff_not, not_not, ← ne_eq, Option.ne_none_iff_exists']
  constructor
  · rintro ⟨c, hc⟩
    exact ⟨c, ((join_eq_some_iff ha hb).mp hc).1⟩
  · rintro ⟨u, hu, hua, hub⟩
    obtain ⟨c, hc, _⟩ := exists_join_of_fits hu hua hub
    exact ⟨c, hc⟩

end

/-! ### Places that are given types -/

/-- What a place holds after it has been given types, and whether one of them did not agree with
what it held then. -/
def absorbAll (held : Ty) : List Ty → Ty × Bool
  | [] => (held, false)
  | ty :: rest =>
    match held.absorb ty with
    | .ok joined => absorbAll joined rest
    | .error kept => ((absorbAll kept rest).1, true)

variable {u : Ty}

/-- What absorbs types without a fault fits all of them. -/
theorem fits_of_absorbAll (hheld : held.isWhole = true) (hts : ∀ t ∈ ts, t.isWhole = true)
    (h : absorbAll held ts = (c, false)) :
  c.isWhole = true ∧ c.fits held = true ∧ ∀ t ∈ ts, c.fits t = true
  := by
  induction ts generalizing held with
  | nil =>
    cases h
    exact ⟨hheld, fits_self _, nofun⟩
  | cons t rest ih =>
    rw [List.forall_mem_cons] at hts ⊢
    rw [absorbAll, absorb] at h
    cases hjoin : held.join t with
    | none =>
      rw [hjoin] at h
      cases h
    | some joined =>
      rw [hjoin] at h
      obtain ⟨hleft, hright⟩ := fits_of_join hjoin
      obtain ⟨hwhole, hfits, hall⟩ := ih (isWhole_join hjoin hheld hts.1) hts.2 h
      exact ⟨hwhole, fits_trans hfits hleft, fits_trans hfits hright, hall⟩

theorem absorbAll_of_fits (hu : u.isWhole = true) (hheld : u.fits held = true)
    (hts : ∀ t ∈ ts, u.fits t = true) :
  ∃ c, absorbAll held ts = (c, false) ∧ u.fits c = true
  := by
  induction ts generalizing held with
  | nil => exact ⟨held, rfl, hheld⟩
  | cons t rest ih =>
    rw [List.forall_mem_cons] at hts
    obtain ⟨joined, hjoin, hfits⟩ := exists_join_of_fits hu hheld hts.1
    rw [absorbAll, absorb, hjoin]
    exact ih hfits hts.2

/-- Without a fault, the order of the types does not matter. -/
theorem absorbAll_of_perm (hts : ∀ t ∈ ts, t.isWhole = true) (hperm : ts.Perm ts')
    (h : (absorbAll .unknown ts).2 = false) :
  absorbAll .unknown ts' = absorbAll .unknown ts
  := by
  have hts' : ∀ t ∈ ts', t.isWhole = true := fun t ht => hts t (hperm.mem_iff.mpr ht)
  obtain ⟨c, hc⟩ : ∃ c, absorbAll .unknown ts = (c, false) := ⟨_, Prod.ext rfl h⟩
  obtain ⟨hwhole, _, hfits⟩ := fits_of_absorbAll rfl hts hc
  obtain ⟨c', hc', hle⟩ := absorbAll_of_fits hwhole fits_unknown fun t ht =>
    hfits t (hperm.mem_iff.mpr ht)
  obtain ⟨hwhole', _, hfits'⟩ := fits_of_absorbAll rfl hts' hc'
  obtain ⟨_, heq, hge⟩ := absorbAll_of_fits hwhole' fits_unknown fun t ht =>
    hfits' t (hperm.mem_iff.mp ht)
  cases hc.symm.trans heq
  rw [hc, hc', fits_antisymm hle hge]

/-- Types without faults form an order with joins, and the order in which a place is given such
types does not matter. -/
theorem fits_order_join_absorbAll {a b : Ty} (ha : a.isWhole = true) (hb : b.isWhole = true) :
  a.fits .unknown = true ∧ a.fits a = true ∧ (a.fits b = true → b.fits a = true → a = b) ∧
  (∀ c, c.isWhole = true → a.fits b = true → b.fits c = true → a.fits c = true) ∧
  (∀ c, a.join b = some c ↔ Bounds c a b ∧ ∀ u, Bounds u a b → u.fits c = true) ∧
  (a.join b = none ↔ ¬ ∃ u, Bounds u a b) ∧
  ∀ ts ts' : List Ty, (∀ t ∈ ts, t.isWhole = true) → ts.Perm ts' →
    (absorbAll .unknown ts).2 = (absorbAll .unknown ts').2 ∧
    ((absorbAll .unknown ts).2 = false → (absorbAll .unknown ts').1 = (absorbAll .unknown ts).1)
  := by
  refine ⟨fits_unknown, fits_self a, fits_antisymm, fun _ _ => fits_trans,
    fun _ => join_eq_some_iff ha hb, join_eq_none_iff ha hb, ?_⟩
  intro ts ts' hts hperm
  have hts' : ∀ t ∈ ts', t.isWhole = true := fun t ht => hts t (hperm.mem_iff.mpr ht)
  constructor
  · apply Bool.not_inj
    rw [Bool.eq_iff_iff, Bool.not_eq_true', Bool.not_eq_true']
    constructor
    · intro h
      rw [absorbAll_of_perm hts hperm h, h]
    · intro h
      rw [absorbAll_of_perm hts' hperm.symm h, h]
  · intro h
    rw [absorbAll_of_perm hts hperm h]

/-- In any order two of the lists and what is unknown come to the same. -/
theorem lists_fits_order_join_absorbAll :
  (Ty.list .unknown).isWhole = true ∧
  ∀ ts', [Ty.list .unknown, .unknown, .list .int].Perm ts' →
    absorbAll .unknown ts' = (.list .int, false)
  := by
  refine ⟨rfl, ?_⟩
  intro ts' hperm
  have h := (fits_order_join_absorbAll (a := .list .unknown) (b := .list .int) rfl rfl).2.2.2.2.2.2
    _ ts' (by decide) hperm
  exact Prod.ext (h.2 rfl) h.1.symm

end Endmark.Ty
