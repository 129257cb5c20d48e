import Mathlib.Order.Basic

/-!
# Published copies of private values

The owner of a value changes it without telling anybody, and stores it from time to time where
others can read it. What they read may be long out of date.

`Copy` is the private value, the published one and the number of stores. `Copy.Since P k` is what is
known of a property that the private value has had ever since the number of stores was `k`: if there
was another store, then the published value has it too (`Since.shown`). So a reader who knows that
there was one reads a value with the property.
-/

/-- A private value and its published copy. -/
structure Copy (V : Type*) where
  /-- What the owner works with. -/
  value : V
  /-- What others read. -/
  shown : V
  /-- How often the owner has stored its value. -/
  stores : ℕ

namespace Copy

variable {V : Type*} {P : V → Prop} {k : ℕ} {v : V} {c : Copy V}

/-- The owner changes its value. -/
def set (c : Copy V) (v : V) : Copy V := { c with value := v }

/-- The owner publishes its value. -/
def publish (c : Copy V) : Copy V := ⟨c.value, c.value, c.stores + 1⟩

/-- The owner stores its value, which is counted later. -/
def store (c : Copy V) : Copy V := { c with shown := c.value }

/-- The owner counts a store. -/
def count (c : Copy V) : Copy V := { c with stores := c.stores + 1 }

/-- The private value has `P`, and had it at every store after the first `k`. -/
structure Since (c : Copy V) (P : V → Prop) (k : ℕ) : Prop where
  le : k ≤ c.stores
  value : P c.value
  shown : k < c.stores → P c.shown

/-- From now on. -/
theorem Since.now (h : P c.value) : c.Since P c.stores where
  le := Nat.le_refl _
  value := h
  shown hlt := absurd hlt (Nat.lt_irrefl _)

theorem Since.set (h : c.Since P k) (hv : P v) : (c.set v).Since P k where
  le := h.le
  value := hv
  shown := h.shown

theorem Since.publish (h : c.Since P k) : c.publish.Since P k where
  le := Nat.le_succ_of_le h.le
  value := h.value
  shown _ := h.value

theorem Since.store (h : c.Since P k) : c.store.Since P k where
  le := h.le
  value := h.value
  shown _ := h.value

/-- What is counted has been stored. -/
theorem Since.count (h : c.Since P k) (hshown : c.shown = c.value) : c.count.Since P k where
  le := Nat.le_succ_of_le h.le
  value := h.value
  shown _ := by
    show P c.shown
    rw [hshown]
    exact h.value

end Copy
