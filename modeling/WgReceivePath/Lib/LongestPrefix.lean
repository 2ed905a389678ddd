import Mathlib.Data.List.Infix

/-!
# Longest-prefix match

A finite map from strings to values answers a query by the value of the longest prefix of
the query that the map binds.  This is the meaning of a routing table, in which a prefix is
a network and a query an address, and it says nothing of how the answer is found.

`longestMatch` is that answer, by recursion on the query: the answer below the first letter,
and failing that the value of the empty prefix.  A search structure is shown to compute it
by one of two rules, according to what it has found: `longestMatch_of_longest`, if it has a
bound prefix and no longer one is bound, and `longestMatch_eq_none`, if no prefix of the
query is bound.  Prefixes of one string are ordered by their length
(`IsPrefix.eq_of_length_eq`), which is what makes "the longest one" well defined.
-/

namespace List

variable {α β : Type*}

/-- The value that `m` gives to the longest prefix of `key` it binds.  The recursion is on
the query, not on the map, which may be any function. -/
def longestMatch (m : List α → Option β) : List α → Option β
  | [] => m []
  | a :: rest => (longestMatch (fun p => m (a :: p)) rest).or (m [])

/-- A query no prefix of which is bound has no answer. -/
theorem longestMatch_eq_none {m : List α → Option β} {key : List α}
    (unbound : ∀ p, p <+: key → m p = none) : longestMatch m key = none := by
  induction key generalizing m with
  | nil => exact unbound [] (prefix_refl _)
  | cons a rest ih =>
      have inner : longestMatch (fun p => m (a :: p)) rest = none :=
        ih fun p before => unbound (a :: p) (cons_prefix_cons.mpr ⟨rfl, before⟩)
      simp [longestMatch, inner, unbound [] nil_prefix]

/-- **The answer is the longest bound prefix.**  A prefix that is bound, with no longer
prefix of the query bound, gives the answer. -/
theorem longestMatch_of_longest {m : List α → Option β} {key p : List α} {v : β}
    (before : p <+: key) (bound : m p = some v)
    (longest : ∀ q, q <+: key → p.length < q.length → m q = none) :
    longestMatch m key = some v := by
  induction key generalizing m p with
  | nil =>
      obtain rfl := prefix_nil.mp before
      exact bound
  | cons a rest ih =>
      cases p with
      | nil =>
          have inner : longestMatch (fun p => m (a :: p)) rest = none :=
            longestMatch_eq_none fun q inside =>
              longest (a :: q) (cons_prefix_cons.mpr ⟨rfl, inside⟩) (by simp)
          simp [longestMatch, inner, bound]
      | cons b p =>
          obtain ⟨rfl, inside⟩ := cons_prefix_cons.mp before
          have inner : longestMatch (fun p => m (b :: p)) rest = some v :=
            ih inside bound fun q within longer =>
              longest (b :: q) (cons_prefix_cons.mpr ⟨rfl, within⟩) (by simpa using longer)
          simp [longestMatch, inner]

/-- Prefixes of one list are equal when they are equally long. -/
theorem IsPrefix.eq_of_length_eq {p q key : List α} (left : p <+: key) (right : q <+: key)
    (same : p.length = q.length) : p = q :=
  (prefix_of_prefix_length_le left right same.le).eq_of_length same

end List
