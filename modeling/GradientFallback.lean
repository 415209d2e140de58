import GradientFallback.Token.Reader
import GradientFallback.Main
import GradientFallback.Proofs.Fallback.Decision
import GradientFallback.Proofs.Fallback.Stability
import GradientFallback.Proofs.Gradient.Reading
import GradientFallback.Proofs.Token.Consuming
import GradientFallback.Proofs.Fallback.Repetition
import GradientFallback.Proofs.Fallback.Suppression
import GradientFallback.Proofs.Fallback.Separation
import GradientFallback.Proofs.Stylesheet.Lenient
import GradientFallback.Proofs.Fallback.Backgrounds
import GradientFallback.Proofs.Stylesheet.Relocation
import GradientFallback.Proofs.Token.Peeking
import GradientFallback.Proofs.Fallback.Independence
import GradientFallback.Proofs.Stylesheet.Opacity
import GradientFallback.Proofs.Gradient.Reversal
import GradientFallback.Proofs.Stylesheet.Landmarks
import GradientFallback.Proofs.Stylesheet.Repair
import GradientFallback.Proofs.Stylesheet.Handover
import GradientFallback.Proofs.Gradient.Trailing
import GradientFallback.Proofs.Gradient.Caseless
import GradientFallback.Proofs.Gradient.Commented
import GradientFallback.Proofs.Color.Hexadecimal
import GradientFallback.Proofs.Fallback.Cascade
import GradientFallback.Proofs.Color.Percentages
import GradientFallback.Proofs.Token.Numerals
import GradientFallback.Proofs.CommandLine.Snippets
import GradientFallback.Proofs.CommandLine.Agreement
import GradientFallback.Proofs.Stylesheet.Terminators
