import Mathlib.Data.List.Nodup
import Mathlib.Data.List.Perm.Subperm
import ToplingArk.RunProofs

/-! # Chains through an array of links

    A slot is a number, the link of a slot names the next slot, and a mark that is no
    slot ends the chain.  A hash table keeps one chain for every bucket; a free list is
    one more chain.  Here are the loops that walk, cut and rebuild such chains, and what
    they do to the slots that are on them. -/

namespace HashChain

open List Option Nat

/-! ## Chains -/

/-- From `p` the links lead through the slots of the list, in this order, to the mark. -/
def Chain (stop : Nat) (link : List Nat) : Nat → List Nat → Prop
  | p, [] => p = stop
  | p, x :: l => p = x ∧ x ≠ stop ∧ ∃ q, link[x]? = some q ∧ Chain stop link q l

variable {stop q : Nat} {link heads link' : List Nat}

variable {a b l : List Nat} {p x : Nat} {hit : Nat → Option Bool}

section

variable (h : Chain stop link p l)

include h

/-- A head determines its chain. -/
theorem Chain.unique {l' : List Nat} (h' : Chain stop link p l') : l = l' := by
  induction l generalizing p l' with
  | nil =>
    cases l' with
    | nil => rfl
    | cons y l' => exact absurd (h'.1.symm.trans h) h'.2.1
  | cons x l ih =>
    obtain ⟨rfl, hx, q, hq, hl⟩ := h
    cases l' with
    | nil => exact absurd h' hx
    | cons y l' =>
      obtain ⟨rfl, -, q', hq', hl'⟩ := h'
      obtain rfl := mem_unique hq hq'
      rw [ih hl hl']

/-- Only the links of the members matter. -/
theorem Chain.congr (hlink : ∀ x ∈ l, link'[x]? = link[x]?) : Chain stop link' p l := by
  induction l generalizing p with
  | nil => exact h
  | cons x l ih =>
    obtain ⟨rfl, hx, q, hq, hl⟩ := h
    refine ⟨rfl, hx, q, ?_, ih hl (fun y hy => hlink y (mem_cons_of_mem _ hy))⟩
    rw [hlink p mem_cons_self, hq]

theorem Chain.set_of_not_mem {v : Nat} (hx : x ∉ l) : Chain stop (link.set x v) p l :=
  h.congr (fun y hy => getElem?_set_ne (fun heq : x = y => hx (heq ▸ hy)))

/-- Members are places of the array. -/
theorem Chain.lt_length : ∀ x ∈ l, x < link.length := by
  induction l generalizing p with
  | nil => simp
  | cons y l ih =>
    obtain ⟨rfl, -, q, hq, hl⟩ := h
    intro x hx
    rcases mem_cons.mp hx with rfl | hx
    · exact (List.getElem_of_getElem? hq).1
    · exact ih hl x hx

/-- More links behind the array do not matter. -/
theorem Chain.append (more : List Nat) : Chain stop (link ++ more) p l :=
  h.congr (fun x hx => getElem?_append_left (h.lt_length x hx))

/-- A new member in front of a chain. -/
theorem Chain.cons (hx : x ∉ l) (hstop : x ≠ stop) (hlt : x < link.length) :
    Chain stop (link.set x p) x (x :: l) :=
  ⟨rfl, hstop, p, getElem?_set_self hlt, h.set_of_not_mem hx⟩

/-- The link of a slot on a chain is the mark or another slot of the chain. -/
theorem Chain.link_of_mem (hx : x ∈ l) : ∃ q, link[x]? = some q ∧ (q = stop ∨ q ∈ l) := by
  induction l generalizing p with
  | nil => simp at hx
  | cons y l ih =>
    obtain ⟨rfl, -, q, hq, hl⟩ := h
    rcases mem_cons.mp hx with rfl | hx
    · refine ⟨q, hq, ?_⟩
      cases l with
      | nil => exact .inl hl
      | cons z l => exact .inr (by rw [hl.1]; simp)
    · obtain ⟨q', hq', hor⟩ := ih hl hx
      exact ⟨q', hq', hor.imp_right (mem_cons_of_mem _)⟩

end

/-- A member inside a chain is taken out. -/
theorem Chain.cut {y : Nat} (h : Chain stop link p (a ++ y :: x :: b))
    (hnodup : (a ++ y :: x :: b).Nodup) (hq : link[x]? = some q) :
    Chain stop (link.set y q) p (a ++ y :: b) := by
  induction a generalizing p with
  | nil =>
    obtain ⟨rfl, hy, x', hx', rfl, -, q', hq', hb⟩ := h
    obtain rfl := mem_unique hq' hq
    have hnot : p ∉ b := by
      intro hmem
      simp only [nil_append, nodup_cons, mem_cons] at hnodup
      exact hnodup.1 (.inr hmem)
    refine ⟨rfl, hy, q', ?_, hb.set_of_not_mem hnot⟩
    exact getElem?_set_self (List.getElem_of_getElem? hx').1
  | cons z a ih =>
    obtain ⟨rfl, hz, r, hr, hrest⟩ := h
    rw [cons_append, nodup_cons] at hnodup
    have hne : y ≠ p := by
      rintro rfl
      exact hnodup.1 (by simp)
    refine ⟨rfl, hz, r, ?_, ih hrest hnodup.2⟩
    rw [getElem?_set_ne hne, hr]

/-! ## Walking a chain -/

/-- Walk from `p` until the first slot that hits or the end, remembering the slot before.
    `none` is a walk outside the array or one that never ends. -/
def seek (stop : Nat) (link : List Nat) (hit : Nat → Option Bool) :
    Nat → Option Nat → Nat → Option (Option Nat × Nat)
  | 0, _, _ => none
  | fuel + 1, prev, p =>
    if p = stop then some (prev, stop)
    else (hit p).bind (fun b =>
      if b then some (prev, p)
      else link[p]?.bind (fun q => seek stop link hit fuel (some p) q))

/-- The slot before the end of a piece of chain. -/
def before (prev : Option Nat) (a : List Nat) : Option Nat := a.getLast?.or prev

theorem before_cons (prev : Option Nat) (x : Nat) (a : List Nat) :
    before prev (x :: a) = before (some x) a := by
  cases a with
  | nil => rfl
  | cons y a =>
    rfl

/-- A walk without a hit ends at the end. -/
theorem seek_miss :
    ∀ {fuel p : Nat} {prev : Option Nat}, Chain stop link p l → l.length < fuel →
      (∀ x ∈ l, hit x = some false) →
      seek stop link hit fuel prev p = some (before prev l, stop) := by
  induction l with
  | nil =>
    rintro (- | fuel) p prev h hfuel -
    · cases hfuel
    · obtain rfl : p = stop := h
      rw [seek, if_pos rfl]
      rfl
  | cons x l ih =>
    rintro (- | fuel) p prev ⟨rfl, hp, q, hq, hl⟩ hfuel hmiss
    · cases hfuel
    · rw [seek, if_neg hp, hmiss p mem_cons_self, bind_some, hq, before_cons]
      exact ih hl (lt_of_succ_lt_succ hfuel)
        (fun y hy => hmiss y (mem_cons_of_mem _ hy))

/-- A walk stops at the first hit. -/
theorem seek_hit :
    ∀ {fuel p : Nat} {prev : Option Nat}, Chain stop link p (a ++ x :: b) → a.length < fuel →
      (∀ y ∈ a, hit y = some false) → hit x = some true →
      seek stop link hit fuel prev p = some (before prev a, x) := by
  induction a with
  | nil =>
    rintro (- | fuel) p prev ⟨rfl, hp, -⟩ hfuel - hx
    · cases hfuel
    · rw [seek, if_neg hp, hx, bind_some]
      rfl
  | cons y a ih =>
    rintro (- | fuel) p prev ⟨rfl, hp, q, hq, hl⟩ hfuel hmiss hx
    · cases hfuel
    · rw [seek, if_neg hp, hmiss p mem_cons_self, bind_some, hq, before_cons]
      exact ih hl (lt_of_succ_lt_succ hfuel)
        (fun z hz => hmiss z (mem_cons_of_mem _ hz)) hx

/-! ## The chains of a hash table -/

/-- The members are spread over the chains of the buckets by their place, each of them
    once. -/
def Buckets (stop : Nat) (link heads : List Nat) (member : Nat → Prop) (place : Nat → Nat) :
    Prop :=
  ∀ b p, heads[b]? = some p →
    ∃ l, Chain stop link p l ∧ l.Nodup ∧ ∀ x, x ∈ l ↔ member x ∧ place x = b

variable {member : Nat → Prop} {place : Nat → Nat}

/-- Only members' links and places matter. -/
theorem Buckets.congr {member' : Nat → Prop} {place' : Nat → Nat}
    (h : Buckets stop link heads member place) (hlink : ∀ x, member x → link'[x]? = link[x]?)
    (hmember : ∀ x, member' x ↔ member x) (hplace : ∀ x, member x → place' x = place x) :
    Buckets stop link' heads member' place' := by
  intro b p hp
  obtain ⟨l, hl, hnodup, hmem⟩ := h b p hp
  refine ⟨l, hl.congr (fun x hx => hlink x ((hmem x).mp hx).1), hnodup, fun x => ?_⟩
  rw [hmem x, hmember x]
  constructor
  · rintro ⟨hx, rfl⟩
    exact ⟨hx, hplace x hx⟩
  · rintro ⟨hx, rfl⟩
    exact ⟨hx, (hplace x hx).symm⟩

/-- Empty buckets, without members. -/
theorem Buckets.empty (stop : Nat) (link : List Nat) (n : Nat) (place : Nat → Nat)
    (hnone : ∀ x, ¬ member x) : Buckets stop link (replicate n stop) member place := by
  intro b p hp
  obtain rfl : stop = p := by
    rw [getElem?_replicate] at hp
    split at hp
    · exact some.inj hp
    · cases hp
  exact ⟨[], rfl, nodup_nil, fun x => by simp [hnone x]⟩

/-- A chain is no longer than the array. -/
theorem Chain.length_le (h : Chain stop link p l) (hnodup : l.Nodup) : l.length ≤ link.length := by
  have hsub : l ⊆ range link.length := fun x hx => mem_range.mpr (h.lt_length x hx)
  simpa using (subperm_of_subset hnodup hsub).length_le

/-- The link of a member is the mark or another member. -/
theorem Buckets.link_of_member (h : Buckets stop link heads member place) (hx : member x)
    (hplace : place x < heads.length) : ∃ q, link[x]? = some q ∧ (q = stop ∨ member q) := by
  obtain ⟨l, hl, -, hmem⟩ := h _ _ (getElem?_eq_getElem hplace)
  obtain ⟨q, hq, hor⟩ := hl.link_of_mem ((hmem x).mpr ⟨hx, rfl⟩)
  exact ⟨q, hq, hor.imp_right (fun hq => ((hmem q).mp hq).1)⟩

/-- A new member in front of its bucket. -/
theorem Buckets.push (h : Buckets stop link heads member place) (hx : ¬ member x) (hstop : x ≠ stop)
    (hlt : x < link.length) (hp : heads[place x]? = some p) :
    Buckets stop (link.set x p) (heads.set (place x) x) (fun y => member y ∨ y = x) place := by
  intro b q hq
  by_cases hb : b = place x
  · obtain ⟨l, hl, hnodup, hmem⟩ := h _ p hp
    have hxl : x ∉ l := fun hxl => hx ((hmem x).mp hxl).1
    rw [hb, getElem?_set_self (List.getElem_of_getElem? hp).1] at hq
    obtain rfl : x = q := some.inj hq
    refine ⟨x :: l, hl.cons hxl hstop hlt, nodup_cons.mpr ⟨hxl, hnodup⟩, fun y => ?_⟩
    rw [mem_cons, hmem y, hb]
    constructor
    · rintro (rfl | ⟨hy, hplace⟩)
      · exact ⟨.inr rfl, rfl⟩
      · exact ⟨.inl hy, hplace⟩
    · rintro ⟨hy | rfl, hplace⟩
      · exact .inr ⟨hy, hplace⟩
      · exact .inl rfl
  rw [getElem?_set_ne (Ne.symm hb)] at hq
  obtain ⟨l, hl, hnodup, hmem⟩ := h b q hq
  have hxl : x ∉ l := fun hxl => hx ((hmem x).mp hxl).1
  refine ⟨l, hl.set_of_not_mem hxl, hnodup, fun y => ?_⟩
  rw [hmem y]
  constructor
  · rintro ⟨hy, hplace⟩
    exact ⟨.inl hy, hplace⟩
  · rintro ⟨hy | rfl, hplace⟩
    · exact ⟨hy, hplace⟩
    · exact absurd hplace.symm hb

/-- The links and heads after the slot `x` of bucket `b` has been taken out behind `prev`. -/
def unlink (link heads : List Nat) (b : Nat) (prev : Option Nat) (q : Nat) :
    List Nat × List Nat :=
  match prev with
  | none => (link, heads.set b q)
  | some y => (link.set y q, heads)

/-- Taking out one slot leaves every other one where it was. -/
theorem Buckets.unlink (h : Buckets stop link heads member place) (hp : heads[place x]? = some p)
    (hl : Chain stop link p (a ++ x :: b)) (hq : link[x]? = some q) :
    Buckets stop (unlink link heads (place x) a.getLast? q).1
      (unlink link heads (place x) a.getLast? q).2 (fun y => member y ∧ y ≠ x) place := by
  obtain ⟨l, hl', hnodup, hmem⟩ := h _ p hp
  obtain rfl := hl'.unique hl
  have hnot : x ∉ a ∧ x ∉ b := by
    have := nodup_middle.mp hnodup
    rw [nodup_cons, mem_append, not_or] at this
    exact this.1
  have hrest : (a ++ b).Nodup := (nodup_cons.mp (nodup_middle.mp hnodup)).2
  have hmem' : ∀ y, y ∈ a ++ b ↔ (member y ∧ y ≠ x) ∧ place y = place x := by
    intro y
    have hy := hmem y
    rw [mem_append, mem_cons] at hy
    rw [mem_append]
    constructor
    · intro hor
      have hne : y ≠ x := by
        rintro rfl
        exact hor.elim hnot.1 hnot.2
      have := hy.mp (hor.imp_right .inr)
      exact ⟨⟨this.1, hne⟩, this.2⟩
    · rintro ⟨⟨hym, hne⟩, hplace⟩
      exact (hy.mpr ⟨hym, hplace⟩).imp_right (fun h => h.resolve_left hne)
  -- the other buckets stay
  have hother : ∀ c r, c ≠ place x → heads[c]? = some r → ∃ l, Chain stop link r l ∧ l.Nodup ∧
      ∀ z, z ∈ l ↔ (member z ∧ z ≠ x) ∧ place z = c := by
    intro c r hc hr
    obtain ⟨l, hl, hnodup, hml⟩ := h c r hr
    refine ⟨l, hl, hnodup, fun z => ?_⟩
    rw [hml z]
    constructor
    · rintro ⟨hz, rfl⟩
      exact ⟨⟨hz, fun hzx => hc (hzx ▸ rfl)⟩, rfl⟩
    · rintro ⟨⟨hz, -⟩, hplace⟩
      exact ⟨hz, hplace⟩
  rcases eq_nil_or_concat a with rfl | ⟨a, y, rfl⟩
  · intro c r hr
    change (heads.set (place x) q)[c]? = some r at hr
    change ∃ l, Chain stop link r l ∧ _
    obtain ⟨-, -, q', hq', hb⟩ := hl
    obtain rfl := mem_unique hq' hq
    by_cases hc : c = place x
    · rw [hc, List.getElem?_set_self (List.getElem_of_getElem? hp).1] at hr
      obtain rfl : q' = r := some.inj hr
      exact ⟨b, hb, hrest, fun z => hc ▸ hmem' z⟩
    rw [getElem?_set_ne (Ne.symm hc)] at hr
    exact hother c r hc hr
  rw [concat_eq_append] at *
  rw [getLast?_concat]
  intro c r hr
  change heads[c]? = some r at hr
  change ∃ l, Chain stop (link.set y q) r l ∧ _
  by_cases hc : c = place x
  · obtain rfl := mem_unique hp (hc ▸ hr)
    refine ⟨a ++ [y] ++ b, ?_, hrest, fun z => hc ▸ hmem' z⟩
    rw [append_assoc] at hl hnodup ⊢
    exact Chain.cut hl hnodup hq
  · -- nor do they contain the slot whose link changes
    obtain ⟨l, hl', hnodup', hml⟩ := hother c r hc hr
    have hyx : place y = place x := ((hmem y).mp (by simp)).2
    exact ⟨l, hl'.set_of_not_mem (fun hyl => hc (((hml y).mp hyl).2.symm.trans hyx)), hnodup', hml⟩

@[simp] theorem unlink_length (link heads : List Nat) (b : Nat) (prev : Option Nat) (q : Nat) :
    (unlink link heads b prev q).1.length = link.length ∧
      (unlink link heads b prev q).2.length = heads.length := by
  cases prev <;> simp [unlink]

/-- Nothing on the chain of a bucket hits. -/
theorem Buckets.seek_miss (h : Buckets stop link heads member place) {b : Nat}
    (hp : heads[b]? = some p) (hmiss : ∀ x, member x → place x = b → hit x = some false) :
    ∃ prev, seek stop link hit (link.length + 1) none p = some (prev, stop) := by
  obtain ⟨l, hl, hnodup, hmem⟩ := h b p hp
  refine ⟨before none l, HashChain.seek_miss hl ?_ (fun x hx => ?_)⟩
  · exact lt_succ_of_le (hl.length_le hnodup)
  · exact hmiss x ((hmem x).mp hx).1 ((hmem x).mp hx).2

/-- **FINDING A MEMBER**: the walk stops at the one member that hits, and with the slot it
    remembers the member can be taken out. -/
theorem Buckets.seek_hit (h : Buckets stop link heads member place) (hp : heads[place x]? = some p)
    (hx : member x) (hhit : hit x = some true)
    (hmiss : ∀ y, member y → place y = place x → y ≠ x → hit y = some false) :
    ∃ prev q, seek stop link hit (link.length + 1) none p = some (prev, x) ∧
      link[x]? = some q ∧
      Buckets stop (HashChain.unlink link heads (place x) prev q).1
        (HashChain.unlink link heads (place x) prev q).2 (fun y => member y ∧ y ≠ x) place ∧
      ∀ y, ¬ member y → (HashChain.unlink link heads (place x) prev q).1[y]? = link[y]? := by
  obtain ⟨l, hl, hnodup, hmem⟩ := h _ p hp
  obtain ⟨a, b, rfl⟩ := append_of_mem ((hmem x).mpr ⟨hx, rfl⟩)
  obtain ⟨q, hq, -⟩ := hl.link_of_mem (mem_append_right _ mem_cons_self)
  have hbefore : before none a = a.getLast? := or_none
  have hlen := hl.length_le hnodup
  rw [length_append] at hlen
  refine ⟨a.getLast?, q, ?_, hq, h.unlink hp hl hq, fun y hy => ?_⟩
  · rw [← hbefore]
    refine HashChain.seek_hit hl (by omega) (fun y hy => ?_) hhit
    have hym := (hmem y).mp (mem_append_left _ hy)
    refine hmiss y hym.1 hym.2 ?_
    rintro rfl
    exact (nodup_append.mp hnodup).2.2 y hy y mem_cons_self rfl
  · cases hlast : a.getLast? with
    | none => rfl
    | some z =>
      have hz := (hmem z).mp (mem_append_left _ (mem_of_getLast? hlast))
      refine getElem?_set_ne ?_
      rintro rfl
      exact hy hz.1

/-! ## Rebuilding the chains -/

/-- One slot put at the head of its bucket, unless it is skipped. -/
def relinkStep (keep : List Nat → Nat → Option Bool) (place : Nat → Option Nat)
    (s : List Nat × List Nat) (j : Nat) : Option (List Nat × List Nat) :=
  (keep s.1 j).bind (fun k =>
    if k then (place j).bind (fun b => s.2[b]?.map (fun p => (s.1.set j p, s.2.set b j)))
    else some s)

/-- The loop over the slots below `n`. -/
def relink (keep : List Nat → Nat → Option Bool) (place : Nat → Option Nat) (n : Nat)
    (link heads : List Nat) : Option (List Nat × List Nat) :=
  Runs.run (relinkStep keep place) (link, heads) (range n)

/-- **REBUILDING**: from empty buckets every kept slot gets onto the chain of its place, and
    the links of the skipped slots stay. -/
theorem relink_spec {keep : List Nat → Nat → Option Bool} {place' : Nat → Option Nat}
    (member : Nat → Prop) (place : Nat → Nat) (nb : Nat) {n : Nat}
    (hstop : ∀ j, j < n → member j → j ≠ stop) (hlen : n ≤ link.length)
    (hkeep : ∀ j, j < n → ∀ link' : List Nat, link'[j]? = link[j]? →
      (member j ∧ keep link' j = some true) ∨ (¬ member j ∧ keep link' j = some false))
    (hplace : ∀ j, j < n → member j → place' j = some (place j) ∧ place j < nb) :
    ∃ link' heads', relink keep place' n link (replicate nb stop) = some (link', heads') ∧
      link'.length = link.length ∧ heads'.length = nb ∧
      Buckets stop link' heads' (fun x => x < n ∧ member x) place ∧
      ∀ x, ¬ (x < n ∧ member x) → link'[x]? = link[x]? := by
  induction n with
  | zero =>
    refine ⟨link, replicate nb stop, rfl, rfl, length_replicate, ?_, fun _ _ => rfl⟩
    exact Buckets.empty stop link nb place (fun x hx => not_lt_zero x hx.1)
  | succ n ih =>
    obtain ⟨link1, heads1, hrun, hlen1, hnb, hbuckets, hsame⟩ := ih
      (fun j hj => hstop j (by omega)) (by omega) (fun j hj => hkeep j (by omega))
      (fun j hj => hplace j (by omega))
    -- the slot's own link is still the old one
    have hn : link1[n]? = link[n]? := hsame n (fun h => Nat.lt_irrefl n h.1)
    have hsnoc : relink keep place' (n + 1) link (replicate nb stop) =
        relinkStep keep place' (link1, heads1) n := by
      unfold relink at hrun ⊢
      rw [range_succ, Runs.run_snoc, hrun, bind_some]
    rw [hsnoc, relinkStep]
    rcases hkeep n (lt_succ_self n) link1 hn with ⟨hmem, hk⟩ | ⟨hmem, hk⟩
    · -- the slot is kept: it becomes the head of its bucket
      obtain ⟨hpl, hlt⟩ := hplace n (lt_succ_self n) hmem
      obtain ⟨p, hp⟩ : ∃ p, heads1[place n]? = some p :=
        ⟨_, getElem?_eq_getElem (hnb ▸ hlt)⟩
      refine ⟨link1.set n p, heads1.set (place n) n, ?_, ?_, ?_, ?_, fun x hx => ?_⟩
      · rw [hk, bind_some, if_pos rfl, hpl, bind_some, hp, map_some]
      · rw [length_set, hlen1]
      · rw [length_set, hnb]
      · refine (hbuckets.push (fun h => Nat.lt_irrefl n h.1)
          (hstop n (lt_succ_self n) hmem) (by omega) hp).congr
          (fun _ _ => rfl) (fun x => ?_) (fun _ _ => rfl)
        constructor
        · rintro ⟨hx, hm⟩
          rcases Nat.lt_succ_iff_lt_or_eq.mp hx with hx | rfl
          · exact .inl ⟨hx, hm⟩
          · exact .inr rfl
        · rintro (⟨hx, hm⟩ | rfl)
          · exact ⟨by omega, hm⟩
          · exact ⟨lt_succ_self x, hmem⟩
      · rw [getElem?_set_ne (by rintro rfl; exact hx ⟨lt_succ_self n, hmem⟩)]
        exact hsame x (fun h => hx ⟨by omega, h.2⟩)
    refine ⟨link1, heads1, ?_, hlen1, hnb, ?_, fun x hx => ?_⟩
    · rw [hk, bind_some, if_neg Bool.false_ne_true]
    · refine hbuckets.congr (fun _ _ => rfl) (fun x => ?_) (fun _ _ => rfl)
      constructor
      · rintro ⟨hx, hm⟩
        rcases Nat.lt_succ_iff_lt_or_eq.mp hx with hx | rfl
        · exact ⟨hx, hm⟩
        · exact absurd hm hmem
      · rintro ⟨hx, hm⟩
        exact ⟨by omega, hm⟩
    · exact hsame x (fun h => hx ⟨by omega, h.2⟩)

end HashChain
