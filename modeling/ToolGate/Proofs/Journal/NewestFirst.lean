import ToolGate.Proofs.Journal.DayNames

namespace ToolGate

variable {es listing : List Entry} {f : Filter} {days : List Int}

structure NewestFirst (es listing : List Entry) : Prop where
  perm : listing.Perm es
  descending : listing.Pairwise fun a b => b.instant.day ≤ a.instant.day
  stable : ∀ n, listing.filter (·.instant.day = n) = es.filter (·.instant.day = n)

def byDays (days : List Int) (es : List Entry) : List Entry :=
  days.flatMap fun n => es.filter (·.instant.day = n)

theorem filter_day_byDays (hdays : days.Nodup) (es : List Entry) (n : Int) :
    (byDays days es).filter (·.instant.day = n) =
      if n ∈ days then es.filter (·.instant.day = n) else [] := by
  induction days with
  | nil => rfl
  | cons m days ih =>
      obtain ⟨hm, hdays⟩ := List.nodup_cons.1 hdays
      have hrest := ih hdays
      rw [byDays, List.flatMap_cons, List.filter_append, List.filter_filter]
      rw [byDays] at hrest
      rw [hrest]
      by_cases hn : n = m
      · subst hn
        simp [hm]
      · have hnone (e : Entry) :
            (decide (e.instant.day = n) && decide (e.instant.day = m)) = false := by
          simp only [Bool.and_eq_false_iff, decide_eq_false_iff_not]
          omega
        simp [hn, hnone]

theorem pairwise_byDays (hdays : days.Pairwise (· > ·)) (es : List Entry) :
    (byDays days es).Pairwise fun a b => b.instant.day ≤ a.instant.day := by
  induction days with
  | nil => exact .nil
  | cons n days ih =>
      obtain ⟨hn, hdays⟩ := List.pairwise_cons.1 hdays
      have hday {m : Int} {e : Entry} (he : e ∈ es.filter (·.instant.day = m)) :
          e.instant.day = m := by
        simpa using (List.mem_filter.1 he).2
      rw [byDays, List.flatMap_cons, List.pairwise_append]
      refine ⟨?_, ih hdays, fun a ha b hb => ?_⟩
      · refine List.pairwise_of_forall_mem_list fun a ha b hb => ?_
        exact Int.le_of_eq ((hday hb).trans (hday ha).symm)
      · obtain ⟨m, hm, hb⟩ := List.mem_flatMap.1 hb
        rw [hday ha, hday hb]
        exact Int.le_of_lt (hn m hm)

theorem perm_of_filter_day (h : ∀ n, listing.filter (·.instant.day = n) =
    es.filter (·.instant.day = n)) : listing.Perm es := by
  classical
  rw [List.perm_iff_count]
  intro a
  have hcount (l : List Entry) :
      (l.filter (·.instant.day = a.instant.day)).count a = l.count a :=
    List.count_filter (by simp)
  rw [← hcount listing, ← hcount es, h]

theorem eq_of_filter_day {xs ys : List Entry}
    (hxs : xs.Pairwise fun a b => b.instant.day ≤ a.instant.day)
    (hys : ys.Pairwise fun a b => b.instant.day ≤ a.instant.day)
    (h : ∀ n, xs.filter (·.instant.day = n) = ys.filter (·.instant.day = n)) : xs = ys := by
  induction xs generalizing ys with
  | nil => exact (perm_of_filter_day h).nil_eq
  | cons x xs ih =>
      have hperm := perm_of_filter_day h
      cases ys with
      | nil => exact hperm.eq_nil
      | cons y ys =>
          obtain ⟨hx, hxs'⟩ := List.pairwise_cons.1 hxs
          obtain ⟨hy, hys'⟩ := List.pairwise_cons.1 hys
          have hxy : x.instant.day = y.instant.day := by
            refine Int.le_antisymm ?_ ?_
            · obtain rfl | hmem := List.mem_cons.1 (hperm.subset List.mem_cons_self)
              · exact Int.le_refl _
              · exact hy x hmem
            · obtain rfl | hmem := List.mem_cons.1 (hperm.symm.subset List.mem_cons_self)
              · exact Int.le_refl _
              · exact hx y hmem
          have hfirst := h x.instant.day
          simp only [List.filter_cons, hxy, decide_true, if_true, List.cons.injEq] at hfirst
          obtain ⟨rfl, -⟩ := hfirst
          congr 1
          refine ih hxs' hys' fun n => ?_
          have hn := h n
          simp only [List.filter_cons] at hn
          split at hn
          · exact List.tail_eq_of_cons_eq hn
          · exact hn

theorem NewestFirst.unique {other : List Entry} (h : NewestFirst es listing)
    (h' : NewestFirst es other) : listing = other :=
  eq_of_filter_day h.descending h'.descending fun n => (h.stable n).trans (h'.stable n).symm

theorem newestFirst_byDays (hdays : days.Pairwise (· > ·))
    (h : ∀ e ∈ es, f.admits e → e.instant.day ∈ days) :
    NewestFirst (es.filter f.admits) ((byDays days es).filter f.admits) := by
  have hnodup : days.Nodup := hdays.imp fun hlt heq => by omega
  have hstable (n : Int) : ((byDays days es).filter f.admits).filter (·.instant.day = n) =
      (es.filter f.admits).filter (·.instant.day = n) := by
    have hswap (l : List Entry) : (l.filter f.admits).filter (·.instant.day = n) =
        (l.filter (·.instant.day = n)).filter f.admits := by
      rw [List.filter_filter, List.filter_filter]
      exact congrArg l.filter (funext fun e => Bool.and_comm _ _)
    rw [hswap, hswap, filter_day_byDays hnodup]
    split
    · rfl
    · rename_i hn
      refine (List.filter_eq_nil_iff.2 fun e he hadmits => ?_).symm
      obtain ⟨he, hday⟩ := List.mem_filter.1 he
      have hday : e.instant.day = n := by simpa using hday
      exact hn (hday ▸ h e he hadmits)
  exact ⟨perm_of_filter_day hstable, (pairwise_byDays hdays es).filter _, hstable⟩

end ToolGate
