import AtomLisp.Program

/-!
# The library

Procedures written in the language itself, which a root scope is usually given before a program is
run in it: truth values and pairs, and the procedure `run-tests`.
-/

namespace AtomLisp

namespace Library

/-- Procedures on truth values and pairs. A pair is a closure that hands out its halves on
request. -/
def procedures : String :=
"
(define exit quit)

(define (true? x)
  (eq? x #t))
(define (false? x) (not (true? x)))
(define (not x)
  (if (true? x)
      #f
      #t))

(define (cons a b)
  (lambda (cmd)
    (if (eq? cmd 'car)
        a
        (if (eq? cmd 'cdr)
            b
            (error no-such-method: cmd -- CONS)))))
(define car (lambda (x)
  (x 'car)))
(define cdr (lambda (x)
  (x 'cdr)))
(define cadr (lambda (x) (car (cdr x))))
"

/-- The procedure `run-tests`, which prints a dot for every check that holds and fails with an
error of its own at the first one that does not. It uses `procedures`. -/
def checks : String :=
"
(define (run-tests)

  (define (assert x msg)
    (if (true? x)
        (print .)
        (error msg)))

  (define (deny x msg)
    (if (false? x)
        (print .)
        (error msg)))

  (define (environment-tests)
    (define (inherit-local-over-global-test)
      (define b 1)
      (define (a) b)
      (define (c b)
        (lambda () (a)))
      (assert (eq? 1 ((c 2))) b-should-reference-its-definition-when-defined))
    (inherit-local-over-global-test))

  (define (logic-tests)
    (define (true-test)
      (assert (eq? #t (true? #t)) true-is-true)
      (deny (eq? #t (true? #f)) false-is-not-true))
    (define (not-test)
      (assert (eq? #t (not #f)) not-should-negate-false)
      (assert (eq? #f (not #t)) not-should-negate-true))
    (true-test)
    (not-test))

  (define (if-tests)
    (define (if-test)
      (assert (eq? #f (if #f #t #f)) if-should-return-the-else-clause-for-a-false-predicate))
    (if-test))

  (define (cond-tests)
    (define (cond-test)
      (assert (eq? #t (cond (#f #f)
                            (else #t)))
              cond-should-fall-through-to-else))
    (cond-test))

  (define (cons-tests)
    (define (car-cons-test)
      (assert (eq? 1 (car (cons 1 2))) car-cons-should-return-the-car-of-a-pair))
    (define (cdr-cons-test)
      (assert (eq? 2 (cdr (cons 1 2))) cdr-cons-should-return-the-cdr-of-a-pair))
    (car-cons-test)
    (cdr-cons-test))

  (environment-tests)
  (logic-tests)
  (if-tests)
  (cond-tests)
  (cons-tests))
"

/-- Define all procedures of the library in scope `s`. -/
def load (depth : Nat) (s : ScopeId) : Eval Unit := do
  let _ ← run depth procedures s
  let _ ← run depth checks s

end Library

end AtomLisp
