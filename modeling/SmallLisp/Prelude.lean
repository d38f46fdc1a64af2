/-!
# The prelude

Procedures that are written in the language itself. A session reads them after the primitives, so
programs can use them, look into them and replace them.
-/

namespace SmallLisp

/-- The source text of the prelude. -/
def Prelude.source : String :=
  "; Procedures written in the language itself, loaded after the primitives.

(define (not x) (if x #f #t))

(define (abs x) (if (< x 0) (- x) x))

(define (length items)
  (if (null? items)
      0
      (+ 1 (length (cdr items)))))

(define (map f items)
  (if (null? items)
      '()
      (cons (f (car items)) (map f (cdr items)))))

(define (append a b)
  (if (null? a)
      b
      (cons (car a) (append (cdr a) b))))

(define (reverse items)
  (define (loop rest acc)
    (if (null? rest)
        acc
        (loop (cdr rest) (cons (car rest) acc))))
  (loop items '()))
"

/-- The name under which the prelude is read. -/
def Prelude.file : String := "prelude.scm"

end SmallLisp
