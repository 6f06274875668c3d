/-!
# The prelude

Definitions written in the language itself, evaluated in the global frame before
a program runs: macros for definitions, conditionals and short-circuit logic,
and a few procedures on numbers, types and ranges.
-/

namespace Lisp.Prelude

/-- The name of the prelude in spans. -/
def label : String := "<prelude>"

/-- The macros for definitions and for bodies of several forms. -/
def definitions : String :=
"; Standard definitions loaded into every interpreter unless --no-prelude is given.

(def def-macro
  (macro (name params ... body)
    `(def ,name (macro ,params ,,,body))))

(def-macro def-proc (name params ... body)
  `(def ,name (proc ,params ,,,body)))

(def-macro when (test ... body)
  `(if ,test (do ,,,body)))

(def-macro unless (test ... body)
  `(if ,test nil (do ,,,body)))

"

/-- The macro `and`. -/
def conjunction : String :=
"(def-macro and (... forms)
  (if (empty? forms)
    true
    (if (empty? (rest forms))
      (first forms)
      `(if ,(first forms) (and ,,,(rest forms)) false))))

"

/-- The macro `or`. -/
def disjunction : String :=
"(def-macro or (... forms)
  (if (empty? forms)
    false
    (let (value (unique-sym \"or\"))
      `(let (,value ,(first forms))
         (if ,value ,value (or ,,,(rest forms)))))))

"

/-- The macro `cond`. -/
def conditional : String :=
"; (cond test result ... :else result)
(def-macro cond (... clauses)
  (if (empty? clauses)
    nil
    (let ([test result ... more] clauses)
      (if (= test :else)
        result
        `(if ,test ,result (cond ,,,more))))))

"

/-- The procedures. -/
def procedures : String :=
"(def-proc identity (x) x)
(def-proc inc (n) (+ n 1))
(def-proc dec (n) (- n 1))

(def-proc nil? (x) (= (type-of x) Nil))
(def-proc list? (x) (= (type-of x) List))
(def-proc map? (x) (= (type-of x) Map))

; (range end) or (range start end)
(def-proc range (a b)
  (def step
    (proc (i end acc)
      (if (< i end) (recur (step (+ i 1) end (conj acc i))) acc)))
  (if (nil? b) (step 0 a []) (step a b [])))
"

/-- The text of the prelude. -/
def text : String :=
  definitions ++ conjunction ++ disjunction ++ conditional ++ procedures

end Lisp.Prelude
