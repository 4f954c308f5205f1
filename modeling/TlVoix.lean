import TlVoix.Lib.Run
import TlVoix.Lib.Fuel
import TlVoix.Lib.Arr
import TlVoix.Lib.Journal
import TlVoix.Lib.Warp
import TlVoix.Lib.WarpStutter
import TlVoix.Lib.Scan
import TlVoix.Lib.BitRev
import TlVoix.Lib.Exchange
import TlVoix.Lib.Dft
import TlVoix.Lib.Toeplitz
import TlVoix.Lib.Ballot
import TlVoix.Lib.Margin
import TlVoix.Lib.Recogniser
import TlVoix.Lib.Sliding
import TlVoix.Spec.Acoustic
import TlVoix.Lib.Hat
import TlVoix.Cpp.Libmfcc
import TlVoix.Cpp.Libmfcc1
import TlVoix.Cpp.Fourier
import TlVoix.Cpp.Frame
import TlVoix.Cpp.Morceau
import TlVoix.Cpp.Dtw
import TlVoix.Cpp.Classif
import TlVoix.Cpp.Serie
import TlVoix.Cpp.Istream
import TlVoix.Cpp.Main
import TlVoix.Cpp.Console
import TlVoix.Cpp.SerieRead
import TlVoix.Cpp.Proof.Dtw
import TlVoix.Cpp.Proof.DtwLaws
import TlVoix.Cpp.Proof.Libmfcc
import TlVoix.Cpp.Proof.BitReversal
import TlVoix.Cpp.Proof.BinaryInversion
import TlVoix.Cpp.Proof.Fft
import TlVoix.Cpp.Proof.Fourier
import TlVoix.Cpp.Proof.Tones
import TlVoix.Cpp.Proof.FourierSafety
import TlVoix.Cpp.Proof.Lpc
import TlVoix.Cpp.Proof.LpcSafety
import TlVoix.Cpp.Proof.Mfcc
import TlVoix.Cpp.Proof.Spectrum
import TlVoix.Cpp.Proof.FftInverse
import TlVoix.Cpp.Proof.Features
import TlVoix.Cpp.Proof.Lecture
import TlVoix.Cpp.Proof.Bounds
import TlVoix.Cpp.Proof.Acoustic
import TlVoix.Cpp.Proof.Classif
import TlVoix.Cpp.Proof.ClassifLaws
import TlVoix.Cpp.Proof.Margin
import TlVoix.Cpp.Proof.DtwSequence
import TlVoix.Cpp.Proof.Commande
import TlVoix.Cpp.Proof.Istream
import TlVoix.Cpp.Proof.Base
import TlVoix.Cpp.Proof.Main
import TlVoix.Cpp.Proof.Recognition
import TlVoix.Cpp.Proof.Console
import TlVoix.Cpp.Proof.SerieRead
import TlVoix.Matlab.Proof.DistGlobale
import TlVoix.Matlab.Proof.RemoveBlanc
import TlVoix.Matlab.Proof.Mymfcc
import TlVoix.Cpp.Proof.FilterBank
import TlVoix.Cpp.Proof.Heard
import TlVoix.Lib.Prediction
import TlVoix.Matlab.Mylpc
import TlVoix.Matlab.Proof.Mylpc
import TlVoix.Cpp.Proof.LpcFilter
import TlVoix.Matlab.Main
import TlVoix.Matlab.Proof.Main
